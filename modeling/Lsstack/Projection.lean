/-
The part of a system that some of its processes are.

Processes over one store may fall into a part and the rest of the system: the part reads and
writes its own rows, which the rest at most reads.  What is seen of a run from the part is then
a run of the part alone, in which the steps of the rest do nothing.

* `Part` — the rows, sequences and processes of a part;
* `Part.exec_mine`, `Part.exec_other` — statements of the part are executed in its view, those
  of the rest do not change the view;
* **`Part.alone`** — the view of a run is a run of the part alone.
-/
import Lsstack.LockOrder
import Lsstack.SessionAmid

namespace Concurrency

variable {κ : Type} {ρ : κ → Type} {σ O E X Y F ε Q A Q₁ A₁ : Type} {XR : X → Type}

/-! ### The view of a part -/

/-- No rows but those under some keys. -/
def Store.restrict (s : Store κ ρ) (p : κ → Bool) : Store κ ρ where
  cell := fun k => if p k then s.cell k else .blank
  keys := s.keys.filter p
  nodup := s.nodup.filter p
  complete := fun k hk => by
    split
    · rename_i hp
      exact s.complete k fun hmem => hk (List.mem_filter.mpr ⟨hmem, hp⟩)
    · rfl

section Store

variable {s s' : Store κ ρ} {p : κ → Bool}

theorem Store.eq_of (hcell : ∀ k, s.cell k = s'.cell k) (hkeys : s.keys = s'.keys) : s = s' := by
  obtain ⟨cell, keys, nodup, complete⟩ := s
  obtain ⟨cell', keys', nodup', complete'⟩ := s'
  obtain rfl : cell = cell' := funext hcell
  obtain rfl : keys = keys' := hkeys
  rfl

theorem Store.restrict_cell {k : κ} (hk : p k = true) : (s.restrict p).cell k = s.cell k :=
  if_pos hk

theorem Store.restrict_cell_other {k : κ} (hk : p k = false) :
    (s.restrict p).cell k = .blank := by
  rw [Store.restrict]
  dsimp only
  rw [hk]
  rfl

theorem Store.restrict_set [DecidableEq κ] {k : κ} (hk : p k = true) (c : Cell (ρ k)) :
    (s.set k c).restrict p = (s.restrict p).set k c := by
  refine Store.eq_of (fun k' => ?_) ?_
  · by_cases hne : k' = k
    · subst hne
      rw [Store.restrict_cell hk, Store.set_cell_self, Store.set_cell_self]
    · rw [Store.set_cell_of_ne _ hne]
      rcases hk' : p k'
      · rw [Store.restrict_cell_other hk', Store.restrict_cell_other hk']
      · rw [Store.restrict_cell hk', Store.restrict_cell hk', Store.set_cell_of_ne _ hne]
  · have hmem : k ∈ s.keys.filter p ↔ k ∈ s.keys :=
      ⟨fun h => (List.mem_filter.mp h).1, fun h => List.mem_filter.mpr ⟨h, hk⟩⟩
    show (if k ∈ s.keys then s.keys else k :: s.keys).filter p =
      if k ∈ s.keys.filter p then s.keys.filter p else k :: s.keys.filter p
    by_cases h : k ∈ s.keys
    · rw [if_pos h, if_pos (hmem.mpr h)]
    · rw [if_neg h, if_neg fun h' => h (hmem.mp h'), List.filter_cons_of_pos hk]

theorem Store.restrict_set_other [DecidableEq κ] {k : κ} (hk : p k = false) (c : Cell (ρ k)) :
    (s.set k c).restrict p = s.restrict p := by
  refine Store.eq_of (fun k' => ?_) ?_
  · rcases hk' : p k'
    · rw [Store.restrict_cell_other hk', Store.restrict_cell_other hk']
    · have hne : k' ≠ k := by
        rintro rfl
        cases hk.symm.trans hk'
      rw [Store.restrict_cell hk', Store.restrict_cell hk', Store.set_cell_of_ne _ hne]
  · show (if k ∈ s.keys then s.keys else k :: s.keys).filter p = s.keys.filter p
    split
    · rfl
    · rw [List.filter_cons_of_neg (by rw [hk]; exact Bool.false_ne_true)]

theorem Store.restrict_mapCells {f : (k : κ) → Cell (ρ k) → Cell (ρ k)}
    (hf : ∀ k, f k .blank = .blank) :
    (s.mapCells f hf).restrict p = (s.restrict p).mapCells f hf := by
  refine Store.eq_of (fun k => ?_) rfl
  show _ = f k ((s.restrict p).cell k)
  rcases hk : p k
  · rw [Store.restrict_cell_other hk, Store.restrict_cell_other hk, hf]
  · rw [Store.restrict_cell hk, Store.restrict_cell hk]
    rfl

theorem Store.restrict_mapCells_other {f : (k : κ) → Cell (ρ k) → Cell (ρ k)}
    (hf : ∀ k, f k .blank = .blank) (hsame : ∀ k, p k = true → f k (s.cell k) = s.cell k) :
    (s.mapCells f hf).restrict p = s.restrict p := by
  refine Store.eq_of (fun k => ?_) rfl
  rcases hk : p k
  · rw [Store.restrict_cell_other hk, Store.restrict_cell_other hk]
  · rw [Store.restrict_cell hk, Store.restrict_cell hk]
    exact hsame k hk

end Store

theorem World.eq_of {w w' : World κ ρ σ O E} (hstore : w.store = w'.store)
    (hseq : ∀ s, w.seq s = w'.seq s) (hlog : w.log = w'.log) (henv : w.env = w'.env) : w = w' := by
  obtain ⟨store, seq, log, env⟩ := w
  obtain ⟨store', seq', log', env'⟩ := w'
  obtain rfl : store = store' := hstore
  obtain rfl : seq = seq' := funext hseq
  obtain rfl : log = log' := hlog
  obtain rfl : env = env' := henv
  rfl

/-- The rows and sequences of a part, what it sees outside, and which requests are its own; it
knows their answers by other names.  `elsewhere` stands for the sequences of the others. -/
structure Part (κ σ E Q A Q₁ A₁ : Type) where
  key : κ → Bool
  seq : σ → Bool
  elsewhere : σ → ℕ
  env : E → E
  request : Q → Option Q₁
  answer : A → A₁

namespace Part

variable (P : Part κ σ E Q A Q₁ A₁)

/-- What the part sees of the shared world; `mine` are its processes. -/
def world (mine : ℕ → Bool) (w : World κ ρ σ O E) : World κ ρ σ O E where
  store := w.store.restrict P.key
  seq := fun s => if P.seq s then w.seq s else P.elsewhere s
  log := w.log.filter fun entry => mine entry.1
  env := P.env w.env

/-- A process of the part. -/
def proc {C : Type} {R : C → Type} (p : Process C R ε Q A) : Option (Process C R ε Q₁ A₁) :=
  (P.request p.request).map fun q =>
    ⟨q, p.calls, p.rest.map fun rest => rest.bind fun a => .ret (P.answer a)⟩

/-- The processes of the part. -/
def mine {C : Type} {R : C → Type} {W : Type} (cfg : Config C R ε Q A W) (i : ℕ) : Bool :=
  (cfg.procs i).any fun p => (P.request p.request).isSome

/-- What the part sees of a configuration. -/
def config (cfg : Config (Statement κ ρ σ O X) (Statement.Reply XR) ε Q A (World κ ρ σ O E)) :
    Config (Statement κ ρ σ O X) (Statement.Reply XR) ε Q₁ A₁ (World κ ρ σ O E) where
  world := P.world (P.mine cfg) cfg.world
  procs := fun i => (cfg.procs i).bind P.proc

/-! ### Statements -/

/-- A statement about the rows of the part. -/
def Mine (ext : E → (x : X) → Y → Option (Except ε (XR x) × E)) : Statement κ ρ σ O X → Prop
  | .select k _ => P.key k = true
  | .scan p _ => ∀ k r, p ⟨k, r⟩ = true → P.key k = true
  | .lock k _ => P.key k = true
  | .tryLock k _ => P.key k = true
  | .update k _ _ => P.key k = true
  | .insert k _ => P.key k = true
  | .delete k _ => P.key k = true
  | .nextval s => P.seq s = true
  | .commit _ => True
  | .rollback => True
  | .ext x => ∀ e y r e', ext e x y = some (r, e') → ext (P.env e) x y = some (r, P.env e')

/-- A statement that may read those rows, but locks and writes others only. -/
def Other (ext : E → (x : X) → Y → Option (Except ε (XR x) × E)) : Statement κ ρ σ O X → Prop
  | .select _ _ => True
  | .scan _ _ => True
  | .lock k _ => P.key k = false
  | .tryLock k _ => P.key k = false
  | .update k _ _ => P.key k = false
  | .insert k _ => P.key k = false
  | .delete k _ => P.key k = false
  | .nextval s => P.seq s = false
  | .commit _ => True
  | .rollback => True
  | .ext x => ∀ e y r e', ext e x y = some (r, e') → P.env e' = P.env e

section Statements

variable {P} {mine : ℕ → Bool} {w w' : World κ ρ σ O E} {i : ℕ} {k : κ}

theorem world_cell (hk : P.key k = true) : (P.world mine w).cell k = w.cell k :=
  Store.restrict_cell hk

theorem world_acquire (hk : P.key k = true) (p : ρ k → Bool) :
    (P.world mine w).acquire i k p = w.acquire i k p := by
  rw [World.acquire, World.acquire, world_cell hk]

theorem world_scan {p : (k : κ) × ρ k → Bool} {le : (k : κ) × ρ k → (k : κ) × ρ k → Bool}
    (hp : ∀ k r, p ⟨k, r⟩ = true → P.key k = true) :
    (P.world mine w).scan i p le = w.scan i p le := by
  rw [World.scan, World.scan]
  refine congrArg _ ?_
  show (w.store.keys.filter P.key).filterMap _ = _
  induction w.store.keys with
  | nil => rfl
  | cons k keys ih =>
    rcases hk : P.key k
    · -- no row under such a key is asked for
      have hnone : (((w.cell k).view i).map fun r => (⟨k, r⟩ : (k : κ) × ρ k)).filter p = none := by
        rcases (w.cell k).view i with _ | r
        · rfl
        · refine Option.filter_eq_none_iff.mpr fun found hfound hpos => ?_
          obtain rfl := Option.some_inj.mp hfound
          cases hk.symm.trans (hp k r hpos)
      have hrest := List.filterMap_cons_none (l := keys) (f := fun k =>
        (((w.cell k).view i).map fun r => (⟨k, r⟩ : (k : κ) × ρ k)).filter p) hnone
      rw [List.filter_cons_of_neg (by rw [hk]; exact Bool.false_ne_true), hrest]
      exact ih
    · rw [List.filter_cons_of_pos hk, List.filterMap_cons, List.filterMap_cons, ih,
        world_cell hk]

theorem world_lock [DecidableEq κ] (hk : P.key k = true) :
    P.world mine (w.lock i k) = (P.world mine w).lock i k := by
  refine World.eq_of ?_ (fun _ => rfl) rfl rfl
  show (w.store.set k ((w.cell k).lock i)).restrict P.key = _
  rw [Store.restrict_set hk, ← world_cell hk]
  rfl

theorem world_write [DecidableEq κ] (hk : P.key k = true) (v : Option (ρ k)) :
    P.world mine (w.write i k v) = (P.world mine w).write i k v := by
  refine World.eq_of ?_ (fun _ => rfl) rfl rfl
  show (w.store.set k ((w.cell k).write i v)).restrict P.key = _
  rw [Store.restrict_set hk, ← world_cell hk]
  rfl

theorem world_commit (hi : mine i = true) (out : O) :
    P.world mine (w.commit i out) = (P.world mine w).commit i out := by
  refine World.eq_of (Store.restrict_mapCells (f := fun _ c => c.publish i) fun _ => rfl)
    (fun _ => rfl) ?_ rfl
  exact List.filter_cons_of_pos (p := fun entry : ℕ × O => mine entry.1) hi

theorem world_release : P.world mine (w.release i) = (P.world mine w).release i :=
  World.eq_of (Store.restrict_mapCells (f := fun _ c => c.release i) fun _ => rfl)
    (fun _ => rfl) rfl rfl

theorem world_nextval [DecidableEq σ] {s : σ} (hs : P.seq s = true) :
    P.world mine (w.nextval s) = (P.world mine w).nextval s := by
  refine World.eq_of rfl (fun s' => ?_) rfl rfl
  by_cases hne : s' = s
  · subst hne
    simp [world, World.nextval, hs]
  · simp [world, World.nextval, hne]

/-- What the rest of the system does to its own rows. -/
theorem world_lock_other [DecidableEq κ] (hk : P.key k = false) :
    P.world mine (w.lock i k) = P.world mine w :=
  World.eq_of (Store.restrict_set_other hk _) (fun _ => rfl) rfl rfl

theorem world_write_other [DecidableEq κ] (hk : P.key k = false) (v : Option (ρ k)) :
    P.world mine (w.write i k v) = P.world mine w :=
  World.eq_of (Store.restrict_set_other hk _) (fun _ => rfl) rfl rfl

theorem world_nextval_other [DecidableEq σ] {s : σ} (hs : P.seq s = false) :
    P.world mine (w.nextval s) = P.world mine w := by
  refine World.eq_of rfl (fun s' => ?_) rfl rfl
  by_cases hne : s' = s
  · subst hne
    simp [world, hs]
  · simp [world, World.nextval, hne]

/-- A session that has locked none of the part's rows. -/
theorem world_commit_other (hi : mine i = false)
    (howner : ∀ k, P.key k = true → (w.cell k).hold.owner ≠ some i) (out : O) :
    P.world mine (w.commit i out) = P.world mine w := by
  refine World.eq_of (Store.restrict_mapCells_other (f := fun _ c => c.publish i) (fun _ => rfl)
    fun k hk => Cell.publish_of_ne (howner k hk)) (fun _ => rfl) ?_ rfl
  refine List.filter_cons_of_neg (p := fun entry : ℕ × O => mine entry.1) ?_
  dsimp only
  rw [hi]
  exact Bool.false_ne_true

theorem world_release_other (howner : ∀ k, P.key k = true → (w.cell k).hold.owner ≠ some i) :
    P.world mine (w.release i) = P.world mine w :=
  World.eq_of (Store.restrict_mapCells_other (f := fun _ c => c.release i) (fun _ => rfl)
    fun k hk => Cell.release_of_ne (howner k hk)) (fun _ => rfl) rfl rfl

variable [DecidableEq κ] [DecidableEq σ] {fault : F → ε}
  {ext : E → (x : X) → Y → Option (Except ε (XR x) × E)} {c : Statement κ ρ σ O X}
  {r : Except ε (c.Reply XR)} {x : Choice F Y}

/-- **A statement of the part** is executed alike in its view. -/
theorem exec_mine (hc : P.Mine ext c) (hi : mine i = true)
    (he : exec fault ext w i c x = some (r, w')) :
    exec fault ext (P.world mine w) i c x = some (r, P.world mine w') := by
  -- what a statement does depends on the projected cells only
  rcases x with _ | e | e | y
  · cases c with
    | select k p =>
      cases he
      simp only [exec, world_cell hc]
    | scan p le =>
      cases he
      simp only [exec, world_scan hc]
    | lock k p =>
      simp only [exec, world_acquire hc] at he ⊢
      rcases ha : w.acquire i k p with _ | _ | a <;> rw [ha] at he <;> cases he
      · rfl
      · simp only [world_lock hc]
    | tryLock k p =>
      simp only [exec, world_acquire hc] at he ⊢
      rcases ha : w.acquire i k p with _ | _ | a <;> rw [ha] at he <;> cases he
      · rfl
      · rfl
      · simp only [world_lock hc]
    | update k p f =>
      simp only [exec, world_acquire hc] at he ⊢
      rcases ha : w.acquire i k p with _ | _ | a <;> rw [ha] at he <;> cases he
      · rfl
      · simp only [world_write hc]
    | insert k v =>
      simp only [exec, world_cell hc] at he ⊢
      split at he
      · rename_i ho
        rw [if_pos ho]
        rcases hv : (w.cell k).view i with _ | a <;> rw [hv] at he <;> cases he
        · simp only [world_write hc]
        · rfl
      · cases he
    | delete k p =>
      simp only [exec, world_acquire hc] at he ⊢
      rcases ha : w.acquire i k p with _ | _ | a <;> rw [ha] at he <;> cases he
      · rfl
      · simp only [world_write hc]
    | nextval s =>
      cases he
      have hseq : (P.world mine w).seq s = w.seq s := if_pos hc
      simp only [exec, world_nextval hc, hseq]
    | commit out =>
      cases he
      simp only [exec, world_commit hi]
    | rollback =>
      cases he
      simp only [exec, world_release]
    | ext x => cases he
  · cases c
    all_goals cases he
    all_goals rfl
  · cases c
    all_goals cases he
    simp only [exec, world_commit hi]
  · cases c
    case ext x =>
      obtain ⟨⟨r', e'⟩, hext, heq⟩ := Option.map_eq_some_iff.mp he
      cases heq
      have hview := hc _ _ _ _ hext
      simp only [exec]
      show (ext (P.env w.env) x y).map _ = _
      rw [hview]
      rfl
    all_goals cases he

/-- **A statement of the rest** does not change it. -/
theorem exec_other (hc : P.Other ext c) (hi : mine i = false)
    (howner : ∀ k, P.key k = true → (w.cell k).hold.owner ≠ some i)
    (he : exec fault ext w i c x = some (r, w')) : P.world mine w' = P.world mine w := by
  -- a statement of the others writes cells outside the projection
  cases c with
  | select k p =>
    obtain ⟨rfl, -⟩ := exec_select he
    rfl
  | scan p le =>
    obtain ⟨rfl, -⟩ := exec_scan he
    rfl
  | lock k p =>
    obtain ⟨rfl, -⟩ | ⟨rfl, -⟩ | ⟨a, rfl, -⟩ := exec_lock he
    · rfl
    · rfl
    · exact world_lock_other hc
  | tryLock k p =>
    obtain ⟨rfl, -⟩ | ⟨rfl, -⟩ | ⟨a, rfl, -⟩ := exec_tryLock he
    · rfl
    · rfl
    · exact world_lock_other hc
  | update k p f =>
    obtain ⟨rfl, -⟩ | ⟨rfl, -⟩ | ⟨a, rfl, -⟩ := exec_update he
    · rfl
    · rfl
    · exact world_write_other hc _
  | insert k v =>
    obtain ⟨rfl, -⟩ | ⟨rfl, -⟩ | ⟨rfl, -⟩ := exec_insert he
    · rfl
    · rfl
    · exact world_write_other hc _
  | delete k p =>
    obtain ⟨rfl, -⟩ | ⟨rfl, -⟩ | ⟨a, rfl, -⟩ := exec_delete he
    · rfl
    · rfl
    · exact world_write_other hc _
  | nextval s =>
    obtain ⟨rfl, -⟩ | ⟨rfl, -⟩ := exec_nextval he
    · rfl
    · exact world_nextval_other hc
  | commit out =>
    obtain ⟨rfl, -⟩ | rfl := exec_commit he
    · rfl
    · exact world_commit_other hi howner out
  | rollback =>
    obtain ⟨rfl, -⟩ := exec_rollback he
    exact world_release_other howner
  | ext y =>
    obtain ⟨rfl, -⟩ | ⟨d, e, hext, rfl⟩ := exec_ext he
    · rfl
    · exact World.eq_of rfl (fun _ => rfl) rfl (hc _ _ _ _ hext)

end Statements

/-! ### Runs -/

section Runs

variable {P} [DecidableEq κ] [DecidableEq σ] {fault : F → ε}
  {ext : E → (x : X) → Y → Option (Except ε (XR x) × E)}
  {code : Q → Program (Statement κ ρ σ O X) (Statement.Reply XR) ε A}
  {code₁ : Q₁ → Program (Statement κ ρ σ O X) (Statement.Reply XR) ε A₁}
  {allowed : Q → Prop} {allowed₁ : Q₁ → Prop}
  {cfg cfg' : Config (Statement κ ρ σ O X) (Statement.Reply XR) ε Q A (World κ ρ σ O E)}

/-- The statements of a process. -/
def Kind (P : Part κ σ E Q A Q₁ A₁) (ext : E → (x : X) → Y → Option (Except ε (XR x) × E)) (q : Q)
    (c : Statement κ ρ σ O X) : Prop :=
  if (P.request q).isSome then P.Mine ext c else P.Other ext c

/-- The programs keep to the part or to the rest, and those of the part are what it knows. -/
structure Splits (P : Part κ σ E Q A Q₁ A₁)
    (ext : E → (x : X) → Y → Option (Except ε (XR x) × E))
    (code : Q → Program (Statement κ ρ σ O X) (Statement.Reply XR) ε A)
    (code₁ : Q₁ → Program (Statement κ ρ σ O X) (Statement.Reply XR) ε A₁)
    (allowed : Q → Prop) (allowed₁ : Q₁ → Prop) : Prop where
  keeps : ∀ q, allowed q → (code q).Issues (P.Kind ext q)
  known : ∀ q q₁, P.request q = some q₁ → allowed q →
    (code q).bind (fun a => .ret (P.answer a)) = code₁ q₁ ∧ allowed₁ q₁

/-- What is left of a program keeps to its side; locks and log are where they belong. -/
structure Apart (P : Part κ σ E Q A Q₁ A₁)
    (ext : E → (x : X) → Y → Option (Except ε (XR x) × E))
    (cfg : Config (Statement κ ρ σ O X) (Statement.Reply XR) ε Q A (World κ ρ σ O E)) : Prop where
  keeps : ∀ i p rest, cfg.procs i = some p → p.rest = some rest →
    rest.Issues (P.Kind ext p.request)
  owned : ∀ k i, P.key k = true → (cfg.world.cell k).hold.owner = some i → P.mine cfg i = true
  logged : ∀ entry ∈ cfg.world.log, cfg.procs entry.1 ≠ none

section Set

variable {i : ℕ} {p : Process (Statement κ ρ σ O X) (Statement.Reply XR) ε Q A}
  {w : World κ ρ σ O E}

omit [DecidableEq κ] [DecidableEq σ] in
theorem mine_set (h : P.mine cfg i = (P.request p.request).isSome) :
    P.mine (cfg.set i p w) = P.mine cfg := by
  funext j
  by_cases hj : j = i
  · subst hj
    rw [mine, Config.set_procs_self, h]
    rfl
  · rw [mine, Config.set_procs_of_ne _ hj]
    rfl

omit [DecidableEq κ] [DecidableEq σ] in
/-- A process of the part moves. -/
theorem config_set {p₁ : Process (Statement κ ρ σ O X) (Statement.Reply XR) ε Q₁ A₁}
    (hp : P.proc p = some p₁) :
    P.config (cfg.set i p w) =
      (P.config cfg).set i p₁ (P.world (P.mine (cfg.set i p w)) w) := by
  refine congrArg (Config.mk _) (funext fun j => ?_)
  by_cases hj : j = i
  · subst hj
    rw [Config.set_procs_self, Function.update_self]
    exact hp
  · rw [Config.set_procs_of_ne _ hj, Function.update_of_ne hj]
    rfl

omit [DecidableEq κ] [DecidableEq σ] in
/-- Another process moves. -/
theorem config_set_other (hp : P.proc p = none) (hi : (P.config cfg).procs i = none)
    (hw : P.world (P.mine (cfg.set i p w)) w = P.world (P.mine cfg) cfg.world) :
    P.config (cfg.set i p w) = P.config cfg := by
  refine congrArg₂ Config.mk hw (funext fun j => ?_)
  by_cases hj : j = i
  · subst hj
    rw [Config.set_procs_self]
    exact hp.trans hi.symm
  · rw [Config.set_procs_of_ne _ hj]

omit [DecidableEq κ] [DecidableEq σ] in
theorem Apart.set (h : Apart P ext cfg)
    (hkeeps : ∀ rest, p.rest = some rest → rest.Issues (P.Kind ext p.request))
    (howned : ∀ k j, P.key k = true → (w.cell k).hold.owner = some j →
      P.mine (cfg.set i p w) j = true)
    (hlogged : ∀ entry ∈ w.log, entry.1 = i ∨ cfg.procs entry.1 ≠ none) :
    Apart P ext (cfg.set i p w) where
  keeps := by
    intro j p' rest hj hrest
    by_cases hji : j = i
    · subst hji
      rw [Config.set_procs_self] at hj
      obtain rfl := Option.some_inj.mp hj
      exact hkeeps rest hrest
    · rw [Config.set_procs_of_ne _ hji] at hj
      exact h.keeps j p' rest hj hrest
  owned := howned
  logged := by
    intro entry hentry
    by_cases hi : entry.1 = i
    · rw [hi, Config.set_procs_self]
      exact Option.some_ne_none p
    · rw [Config.set_procs_of_ne _ hi]
      exact (hlogged entry hentry).resolve_left hi

end Set

omit [DecidableEq κ] [DecidableEq σ] in
theorem world_congr {mine mine' : ℕ → Bool} {w : World κ ρ σ O E}
    (h : ∀ entry ∈ w.log, mine entry.1 = mine' entry.1) : P.world mine w = P.world mine' w :=
  World.eq_of rfl (fun _ => rfl) (List.filter_congr h) rfl

/-- The view after a step: the part has moved, or nothing is seen of it. -/
def Seen (P : Part κ σ E Q A Q₁ A₁) (fault : F → ε)
    (ext : E → (x : X) → Y → Option (Except ε (XR x) × E))
    (code₁ : Q₁ → Program (Statement κ ρ σ O X) (Statement.Reply XR) ε A₁)
    (allowed₁ : Q₁ → Prop)
    (cfg cfg' : Config (Statement κ ρ σ O X) (Statement.Reply XR) ε Q A (World κ ρ σ O E)) : Prop :=
  P.config cfg' = P.config cfg ∨
    (storeMachine fault ext code₁).Step (fun _ q => allowed₁ q) (P.config cfg) (P.config cfg')

section Step

variable (h : Apart P ext cfg) {i : ℕ} {q : Q}
include h

omit [DecidableEq κ] [DecidableEq σ] in
/-- A process that is not of the part holds none of its locks. -/
theorem Apart.owner_ne (hi : P.mine cfg i = false) (k : κ) (hk : P.key k = true) :
    (cfg.world.cell k).hold.owner ≠ some i := by
  intro howner
  cases hi.symm.trans (h.owned k i hk howner)

/-- An arrival. -/
theorem Apart.start (hsplit : Splits P ext code code₁ allowed allowed₁)
    (hfree : cfg.procs i = none) (hq : allowed q) :
    Apart P ext (cfg.set i ⟨q, [], some (code q)⟩ cfg.world) ∧
      Seen P fault ext code₁ allowed₁ cfg (cfg.set i ⟨q, [], some (code q)⟩ cfg.world) := by
  -- the arrival changes what belongs to the projection at `i` only
  have hother : ∀ j, j ≠ i →
      P.mine (cfg.set i ⟨q, [], some (code q)⟩ cfg.world) j = P.mine cfg j := by
    intro j hj
    rw [mine, Config.set_procs_of_ne _ hj]
    rfl
  have hmine : P.mine cfg i = false := by
    rw [mine, hfree]
    rfl
  have hworld : P.world (P.mine (cfg.set i ⟨q, [], some (code q)⟩ cfg.world)) cfg.world =
      P.world (P.mine cfg) cfg.world := by
    refine world_congr fun entry hentry => hother entry.1 ?_
    rintro rfl
    exact h.logged entry hentry hfree
  refine ⟨h.set (fun rest hrest => ?_) (fun k j hk hj => ?_) fun entry hentry =>
    .inr (h.logged entry hentry), ?_⟩
  · obtain rfl := Option.some_inj.mp hrest
    exact hsplit.keeps q hq
  · have hmine' := h.owned k j hk hj
    rw [hother j ?_]
    · exact hmine'
    · rintro rfl
      cases hmine.symm.trans hmine'
  -- the projection had no process `i` either
  · have hnone : (P.config cfg).procs i = none := by
      show (cfg.procs i).bind P.proc = none
      rw [hfree]
      rfl
    rcases hreq : P.request q with _ | q₁
    · refine .inl (config_set_other ?_ hnone hworld)
      rw [proc, hreq]
      rfl
    · obtain ⟨hcode, hq₁⟩ := hsplit.known q q₁ hreq hq
      have hproc : P.proc ⟨q, [], some (code q)⟩ = some ⟨q₁, [], some (code₁ q₁)⟩ := by
        rw [proc, hreq, ← hcode]
        rfl
      refine .inr ?_
      rw [config_set hproc, hworld]
      exact .start hnone hq₁

/-- A statement. -/
theorem Apart.act {calls : List ((c : Statement κ ρ σ O X) × Except ε (c.Reply XR))}
    {c : Statement κ ρ σ O X}
    {k : Except ε (c.Reply XR) → Program (Statement κ ρ σ O X) (Statement.Reply XR) ε A}
    {x : Choice F Y} {r : Except ε (c.Reply XR)} {w : World κ ρ σ O E}
    (hruns : cfg.procs i = some ⟨q, calls, some (.call c k)⟩)
    (he : exec fault ext cfg.world i c x = some (r, w)) :
    Apart P ext (cfg.set i ⟨q, ⟨c, r⟩ :: calls, some (k r)⟩ w) ∧
      Seen P fault ext code₁ allowed₁ cfg (cfg.set i ⟨q, ⟨c, r⟩ :: calls, some (k r)⟩ w) := by
  have hmine : P.mine cfg i = (P.request q).isSome := by
    rw [mine, hruns]
    rfl
  have hset : P.mine (cfg.set i ⟨q, ⟨c, r⟩ :: calls, some (k r)⟩ w) = P.mine cfg :=
    mine_set hmine
  obtain ⟨hkind, hrest⟩ := h.keeps i _ _ hruns rfl
  obtain ⟨_, -, hk⟩ := hrest r trivial
  have hproc : (P.config cfg).procs i = P.proc ⟨q, calls, some (.call c k)⟩ := by
    show (cfg.procs i).bind P.proc = _
    rw [hruns]
    rfl
  -- the locks on the rows of the part are still its own
  have howned : (P.mine cfg i = false → ∀ k', P.key k' = true → w.cell k' = cfg.world.cell k') →
      ∀ k' j, P.key k' = true → (w.cell k').hold.owner = some j →
      P.mine (cfg.set i ⟨q, ⟨c, r⟩ :: calls, some (k r)⟩ w) j = true := by
    intro hsame k' j hk' hj
    rw [hset]
    by_cases hji : j = i
    · subst hji
      rcases hm : P.mine cfg j
      · rw [hsame hm k' hk'] at hj
        exact absurd hj (h.owner_ne hm k' hk')
      · rfl
    · exact h.owned k' j hk' ((exec_moves he k').owner hj hji)
  have hlogged : ∀ entry ∈ w.log, entry.1 = i ∨ cfg.procs entry.1 ≠ none := by
    intro entry hentry
    obtain ⟨-, hlog⟩ | ⟨out, -, rfl⟩ := exec_row he
    · exact .inr (h.logged entry (hlog ▸ hentry))
    · rcases List.mem_cons.mp hentry with rfl | hentry
      · exact .inl rfl
      · exact .inr (h.logged entry hentry)
  rcases hreq : P.request q with _ | q₁
  · have hfalse : P.mine cfg i = false := by rw [hmine, hreq]; rfl
    have hother : P.Other ext c := by
      have hkind' : P.Kind ext q c := hkind
      rw [Kind, hreq] at hkind'
      exact hkind'
    have hworld := exec_other hother hfalse (h.owner_ne hfalse) he
    refine ⟨h.set (fun rest hr => ?_) (howned fun _ k' hk' => ?_) hlogged,
      .inl (config_set_other ?_ ?_ ?_)⟩
    · obtain rfl := Option.some_inj.mp hr
      exact hk
    · have hcell : ∀ w' : World κ ρ σ O E, (P.world (P.mine cfg) w').cell k' = w'.cell k' :=
        fun w' => world_cell hk'
      rw [← hcell, hworld, hcell]
    · rw [proc, hreq]
      rfl
    · rw [hproc, proc, hreq]
      rfl
    · rw [hset, hworld]
  · have htrue : P.mine cfg i = true := by rw [hmine, hreq]; rfl
    have hmine' : P.Mine ext c := by
      have hkind' : P.Kind ext q c := hkind
      rw [Kind, hreq] at hkind'
      exact hkind'
    have hview := exec_mine hmine' htrue he
    refine ⟨h.set (fun rest hr => ?_) (howned fun hfalse => ?_) hlogged, .inr ?_⟩
    · obtain rfl := Option.some_inj.mp hr
      exact hk
    · cases hfalse.symm.trans htrue
    · have hproc' : P.proc ⟨q, ⟨c, r⟩ :: calls, some (k r)⟩ =
          some ⟨q₁, ⟨c, r⟩ :: calls, some ((k r).bind fun a => .ret (P.answer a))⟩ := by
        rw [proc, hreq]
        rfl
      rw [config_set hproc', hset]
      refine .act (k := fun r => (k r).bind fun a => .ret (P.answer a)) ?_ hview
      rw [hproc, proc, hreq]
      rfl

/-- A crash. -/
theorem Apart.crash {calls : List ((c : Statement κ ρ σ O X) × Except ε (c.Reply XR))}
    {c : Statement κ ρ σ O X}
    {k : Except ε (c.Reply XR) → Program (Statement κ ρ σ O X) (Statement.Reply XR) ε A}
    (hruns : cfg.procs i = some ⟨q, calls, some (.call c k)⟩) :
    Apart P ext (cfg.set i ⟨q, calls, none⟩ (cfg.world.release i)) ∧
      Seen P fault ext code₁ allowed₁ cfg
        (cfg.set i ⟨q, calls, none⟩ (cfg.world.release i)) := by
  -- whether process `i` is projected depends on its request alone
  have hmine : P.mine cfg i = (P.request q).isSome := by
    rw [mine, hruns]
    rfl
  have hset : P.mine (cfg.set i ⟨q, calls, none⟩ (cfg.world.release i)) = P.mine cfg :=
    mine_set hmine
  have hproc : (P.config cfg).procs i = P.proc ⟨q, calls, some (.call c k)⟩ := by
    show (cfg.procs i).bind P.proc = _
    rw [hruns]
    rfl
  refine ⟨h.set (fun rest hr => by cases hr) (fun k j hk hj => ?_) fun entry hentry =>
    .inr (h.logged entry hentry), ?_⟩
  · rw [hset]
    have hji : j ≠ i := fun hji => Cell.release_owner_ne _ _ (hji ▸ hj)
    exact h.owned k j hk (Cell.Moves.release.owner hj hji)
  · rcases hreq : P.request q with _ | q₁
    · have hfalse : P.mine cfg i = false := by rw [hmine, hreq]; rfl
      refine .inl (config_set_other ?_ ?_ ?_)
      · rw [proc, hreq]
        rfl
      · rw [hproc, proc, hreq]
        rfl
      · rw [hset, world_release_other (h.owner_ne hfalse)]
    · refine .inr ?_
      have hproc' : P.proc ⟨q, calls, none⟩ = some ⟨q₁, calls, none⟩ := by
        rw [proc, hreq]
        rfl
      rw [config_set hproc', hset, world_release]
      refine .crash (c := c) (k := fun r => (k r).bind fun a => .ret (P.answer a)) ?_
      rw [hproc, proc, hreq]
      rfl

end Step

/-- One step of the system. -/
theorem Apart.step (hsplit : Splits P ext code code₁ allowed allowed₁) (h : Apart P ext cfg)
    (hs : (storeMachine fault ext code).Step (fun _ q => allowed q) cfg cfg') :
    Apart P ext cfg' ∧ Seen P fault ext code₁ allowed₁ cfg cfg' := by
  cases hs with
  | start free may => exact h.start hsplit free may
  | act runs does => exact h.act runs does
  | crash runs => exact h.crash runs

section Run

variable (hsplit : Splits P ext code code₁ allowed allowed₁)
  (run : Run (storeMachine fault ext code) fun _ q => allowed q)
  (hunlocked : ∀ k, P.key k = true → ((run.state 0).world.cell k).hold.owner = none)
  (hunlogged : (run.state 0).world.log = [])
include hsplit hunlocked hunlogged

/-- Part and rest stay apart. -/
theorem apart (n : ℕ) : Apart P ext (run.state n) := by
  refine run.induction ⟨fun i p rest hp => ?_, fun k i hk hi => ?_, fun entry hentry => ?_⟩
    (fun n hs h => (h.step hsplit hs).1) n
  · rw [run.empty] at hp
    cases hp
  · cases (hunlocked k hk).symm.trans hi
  · rw [hunlogged] at hentry
    cases hentry

/-- **The view of a run** is a run of the part alone. -/
theorem alone : ∃ run₁ : Run (storeMachine fault ext code₁) fun _ q => allowed₁ q,
    ∀ n, run₁.state n = P.config (run.state n) := by
  refine ⟨⟨fun n => P.config (run.state n), fun i => ?_, fun n => ?_⟩, fun n => rfl⟩
  · show ((run.state 0).procs i).bind P.proc = none
    rw [run.empty]
    rfl
  · rcases run.next n with hn | hn
    · exact .inl (congrArg P.config hn)
    · exact ((apart hsplit run hunlocked hunlogged n).step hsplit hn).2

end Run

end Runs

end Part

end Concurrency
