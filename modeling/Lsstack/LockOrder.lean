/-
Freedom from deadlock by an order of the locks.

A session waits while another holds the row lock that its next statement asks for.  A row that
refers to another also locks that one, in share mode, by the check of its foreign key: the check
waits while somebody has locked the row, and whoever would lock it waits for the end of the shares.
The store does not make either of them wait, so that it has all runs of such a database, and more.

No sessions wait for each other in a circle if each of them asks for a lock only above those it
holds; rows under numbers that a sequence has issued to the session itself are left out of this,
as no other session can have locked them.

* `World.waits_iff` — a statement waits for a row lock exactly if the store does not execute it;
* `sharedRows`, `Config.Waits` — the rows that a session shares, and who waits for whom;
* `lockOrder` — the discipline, as a protocol of programs;
* `lockOrder_sound` — what it keeps of the locks, along any run;
* **`Run.deadlockFree`** — programs that meet it never wait in a circle, and every wait leads
  to a session that holds its locks and does not wait.
-/
import Lsstack.ReadCommitted

namespace Concurrency

variable {κ : Type} {ρ : κ → Type} {σ O E X Y F ε Q A ι : Type} {XR : X → Type}

/-! ### Waiting -/

/-- The key whose lock a statement takes, and waits for. -/
def Statement.claimed : Statement κ ρ σ O X → Option κ
  | .lock k _ => some k
  | .update k _ _ => some k
  | .delete k _ => some k
  | .insert k _ => some k
  | _ => none

/-- The statement of session `i` waits for session `j`. -/
def World.WaitsFor (w : World κ ρ σ O E) (i : ℕ) : Statement κ ρ σ O X → ℕ → Prop
  | .lock k p, j => w.acquire i k p = .blocked ∧ (w.cell k).hold.owner = some j
  | .update k p _, j => w.acquire i k p = .blocked ∧ (w.cell k).hold.owner = some j
  | .delete k p, j => w.acquire i k p = .blocked ∧ (w.cell k).hold.owner = some j
  | .insert k _, j => j ≠ i ∧ (w.cell k).hold.owner = some j
  | _, _ => False

section Waiting

variable {w : World κ ρ σ O E} {i j : ℕ} {c : Statement κ ρ σ O X}

/-- A cell that is not open is another session's. -/
theorem Cell.not_open {α : Type} {cell : Cell α} (h : ¬ cell.Open i) :
    ∃ j, j ≠ i ∧ cell.hold.owner = some j := by
  rcases howner : cell.hold.owner with _ | j
  · exact absurd (.inl howner) h
  · refine ⟨j, ?_, rfl⟩
    rintro rfl
    exact h (.inr howner)

/-- Whoever is waited for holds the lock. -/
theorem World.WaitsFor.owner (h : w.WaitsFor i c j) :
    ∃ k, c.claimed = some k ∧ (w.cell k).hold.owner = some j ∧ j ≠ i := by
  have hblocked : ∀ {k : κ} {p : ρ k → Bool}, w.acquire i k p = .blocked →
      (w.cell k).hold.owner = some j → j ≠ i := by
    rintro k p hacquire howner rfl
    exact World.acquire_blocked hacquire (.inr howner)
  cases c with
  | lock k p => exact ⟨k, rfl, h.2, hblocked h.1 h.2⟩
  | update k p f => exact ⟨k, rfl, h.2, hblocked h.1 h.2⟩
  | delete k p => exact ⟨k, rfl, h.2, hblocked h.1 h.2⟩
  | insert k v => exact ⟨k, rfl, h.2, h.1⟩
  | _ => cases h

variable [DecidableEq κ] [DecidableEq σ]

/-- A statement waits exactly if it is not executed. -/
theorem World.waits_iff (fault : F → ε) (ext : E → (x : X) → Y → Option (Except ε (XR x) × E)) :
    (∃ j, w.WaitsFor i c j) ↔ exec fault ext w i c .ok = none ∧ ∀ x, c ≠ .ext x := by
  -- a row that is neither absent nor granted is in the hands of another session
  have hacquire : ∀ {k : κ} {p : ρ k → Bool}, w.acquire i k p ≠ .absent →
      (∀ v, w.acquire i k p ≠ .row v) →
      ∃ j, w.acquire i k p = .blocked ∧ (w.cell k).hold.owner = some j := by
    intro k p habsent hrow
    rcases hw : w.acquire i k p with _ | _ | v
    · exact absurd hw habsent
    · obtain ⟨j, -, hj⟩ := Cell.not_open (World.acquire_blocked hw)
      exact ⟨j, rfl, hj⟩
    · exact absurd hw (hrow v)
  constructor
  · rintro ⟨j, h⟩
    cases c with
    | lock k p => exact ⟨by simp only [exec, h.1], fun x hx => by cases hx⟩
    | update k p f => exact ⟨by simp only [exec, h.1], fun x hx => by cases hx⟩
    | delete k p => exact ⟨by simp only [exec, h.1], fun x hx => by cases hx⟩
    | insert k v =>
      refine ⟨?_, fun x hx => by cases hx⟩
      have hclosed : ¬ (w.cell k).Open i := by
        rintro (ho | ho)
        · cases h.2.symm.trans ho
        · exact h.1 (Option.some_inj.mp (h.2.symm.trans ho))
      simp only [exec, if_neg hclosed]
    | _ => cases h
  -- no result means that the row was blocked
  · rintro ⟨h, hext⟩
    cases c with
    | lock k p =>
      refine hacquire (fun hw => ?_) fun v hw => ?_
      all_goals
        simp only [exec, hw] at h
        cases h
    | update k p f =>
      refine hacquire (fun hw => ?_) fun v hw => ?_
      all_goals
        simp only [exec, hw] at h
        cases h
    | delete k p =>
      refine hacquire (fun hw => ?_) fun v hw => ?_
      all_goals
        simp only [exec, hw] at h
        cases h
    | tryLock k p =>
      simp only [exec] at h
      split at h <;> cases h
    | insert k v =>
      simp only [exec] at h
      split at h
      · split at h <;> cases h
      · exact Cell.not_open ‹_›
    | ext x => exact absurd rfl (hext x)
    | _ => cases h

end Waiting

/-! Rows that others refer to. -/

section Sharing

variable (refers : (k : κ) → ρ k → Option κ)

/-- The row that the foreign-key check of an INSERT locks in share mode. -/
def Statement.referred : Statement κ ρ σ O X → Option κ
  | .insert k v => refers k v
  | _ => none

/-- The row that a statement locks against shares, with what it asks of it.  An UPDATE leaves the
key as it is, and may go on beside them. -/
def Statement.excluding : Statement κ ρ σ O X → Option ((k : κ) × (ρ k → Bool))
  | .lock k p => some ⟨k, p⟩
  | .delete k p => some ⟨k, p⟩
  | _ => none

/-- The rows that the open transaction shares, by the calls of its process, newest first.  Where a
commit has failed, they are shared until the rollback. -/
def sharedRows : List ((c : Statement κ ρ σ O X) × Except ε (c.Reply XR)) → List κ
  | [] => []
  | ⟨.commit _, .ok _⟩ :: _ => []
  | ⟨.rollback, _⟩ :: _ => []
  | ⟨.insert k v, .ok true⟩ :: calls => (refers k v).toList ++ sharedRows calls
  | _ :: calls => sharedRows calls

namespace Config

variable (cfg : Config (Statement κ ρ σ O X) (Statement.Reply XR) ε Q A (World κ ρ σ O E))

/-- Process `i` shares the row. -/
def Shares (i : ℕ) (k : κ) : Prop :=
  ∃ q calls rest, cfg.procs i = some ⟨q, calls, some rest⟩ ∧ k ∈ sharedRows refers calls

/-- Process `i` waits for process `j`: for a row lock, with the check of a foreign key, or for the
end of its shares. -/
inductive Waits (i j : ℕ) : Prop
  | lock {q : Q} {calls : List ((c : Statement κ ρ σ O X) × Except ε (c.Reply XR))}
      {c : Statement κ ρ σ O X}
      {rest : Except ε (c.Reply XR) → Program (Statement κ ρ σ O X) (Statement.Reply XR) ε A}
      (runs : cfg.procs i = some ⟨q, calls, some (.call c rest)⟩) (waits : cfg.world.WaitsFor i c j)
  | check {q : Q} {calls : List ((c : Statement κ ρ σ O X) × Except ε (c.Reply XR))}
      {c : Statement κ ρ σ O X}
      {rest : Except ε (c.Reply XR) → Program (Statement κ ρ σ O X) (Statement.Reply XR) ε A}
      {k : κ} (runs : cfg.procs i = some ⟨q, calls, some (.call c rest)⟩)
      (refers : c.referred refers = some k)
      (waits : cfg.world.WaitsFor (X := X) i (.lock k fun _ => true) j)
  | shares {q : Q} {calls : List ((c : Statement κ ρ σ O X) × Except ε (c.Reply XR))}
      {c : Statement κ ρ σ O X}
      {rest : Except ε (c.Reply XR) → Program (Statement κ ρ σ O X) (Statement.Reply XR) ε A}
      {k : κ} {p : ρ k → Bool} (runs : cfg.procs i = some ⟨q, calls, some (.call c rest)⟩)
      (excludes : c.excluding = some ⟨k, p⟩)
      (found : ((cfg.world.cell k).view i).filter p ≠ none)
      (unlocked : (cfg.world.cell k).hold.owner ≠ some i) (shares : cfg.Shares refers j k)
      (ne : j ≠ i)

end Config

end Sharing

/-! ### The discipline -/

/-- What is known of a session: the locks it may hold, the rows it may share, the numbers issued
to it that are not yet in use, and whether a commit has failed, which may have freed the locks. -/
structure LockGhost (κ σ : Type) where
  held : Set κ
  shared : Set κ
  drawn : Set (σ × ℕ)
  failed : Bool

namespace LockGhost

/-- Before the first statement. -/
def idle : LockGhost κ σ := ⟨∅, ∅, ∅, false⟩

/-- The locks of either kind. -/
def locks (g : LockGhost κ σ) : Set κ × Set κ := (g.held, g.shared)

/-- A lock is asked for that is held, or above all that are. -/
def MayClaim [LT ι] (rank : κ → ι) (g : LockGhost κ σ) (k : κ) : Prop :=
  g.failed = false ∧ (k ∈ g.held ∨ ∀ k' ∈ g.held ∪ g.shared, rank k' < rank k)

/-- The statements a session may issue; `number` says which keys are issued by a sequence, and
`refers` to which row another refers, which is to stand above it. -/
def Allows [LT ι] (rank : κ → ι) (number : κ → Option (σ × ℕ)) (refers : (k : κ) → ρ k → Option κ)
    (g : LockGhost κ σ) : Statement κ ρ σ O X → Prop
  | .lock k _ => g.MayClaim rank k
  | .update k _ _ => g.MayClaim rank k
  | .delete k _ => g.MayClaim rank k
  | .insert k v => ((number k = none ∧ g.MayClaim rank k) ∨ ∃ d ∈ g.drawn, number k = some d) ∧
    ∀ k', refers k v = some k' → rank k < rank k' ∧ g.MayClaim rank k'
  | _ => True

/-- A lock has been taken; the number of its key is in use from now on. -/
def take (number : κ → Option (σ × ℕ)) (g : LockGhost κ σ) (k : κ) : LockGhost κ σ :=
  { g with
    held := insert k g.held
    drawn := {d ∈ g.drawn | number k ≠ some d} }

end LockGhost

/-- The lock that a reply shows to be taken. -/
def Statement.taken : (c : Statement κ ρ σ O X) → Except ε (c.Reply XR) → Option κ
  | .lock k _, .ok (some _) => some k
  | .tryLock k _, .ok (some _) => some k
  | .update k _ _, .ok (some _) => some k
  | .delete k _, .ok (some _) => some k
  | .insert k _, .ok true => some k
  | _, _ => none

/-- The ghost state after a reply. -/
def LockGhost.next (number : κ → Option (σ × ℕ)) (refers : (k : κ) → ρ k → Option κ)
    (g : LockGhost κ σ) : (c : Statement κ ρ σ O X) → Except ε (c.Reply XR) → LockGhost κ σ
  | .nextval s, .ok n => { g with drawn := insert (s, n) g.drawn }
  | .commit _, .ok _ => { g with held := ∅, shared := ∅, failed := false }
  | .commit _, .error _ => { g with failed := true }
  | .rollback, _ => { g with held := ∅, shared := ∅, failed := false }
  | .insert k v, .ok true =>
    { g.take number k with shared := {k' | refers k v = some k'} ∪ g.shared }
  | c, r => (c.taken r).elim g (g.take number)

/-- The discipline. -/
def lockOrder [LT ι] (rank : κ → ι) (number : κ → Option (σ × ℕ))
    (refers : (k : κ) → ρ k → Option κ) :
    Protocol (Statement κ ρ σ O X) (Statement.Reply XR) ε (LockGhost κ σ) :=
  .automaton (LockGhost.Allows rank number refers) (LockGhost.next number refers)

/-! ### What it keeps of the locks -/

/-- A row or a lock has been there. -/
def Cell.Used {α : Type} (cell : Cell α) : Prop :=
  cell.committed ≠ none ∨ cell.hold.owner ≠ none

theorem Cell.used_of_view {α : Type} {cell : Cell α} {i : ℕ} {a : α} (h : cell.view i = some a) :
    cell.Used := by
  by_cases howner : cell.hold.owner = none
  · rw [Cell.view_of_owner_ne (by rw [howner]; exact (Option.some_ne_none i).symm)] at h
    exact .inl (by rw [h]; exact Option.some_ne_none a)
  · exact .inr howner

theorem Cell.used_of_release {α : Type} {cell : Cell α} {i : ℕ} (h : (cell.release i).Used) :
    cell.Used := by
  rcases h with h | h
  · rw [Cell.release_committed] at h
    exact .inl h
  · obtain ⟨j, hj⟩ := Option.ne_none_iff_exists'.mp h
    refine .inr ?_
    rw [Cell.Moves.release.owner hj fun hji => Cell.release_owner_ne _ _ (hji ▸ hj)]
    exact Option.some_ne_none j

theorem Cell.used_of_publish {α : Type} {cell : Cell α} {i : ℕ} (h : (cell.publish i).Used) :
    cell.Used := by
  rcases h with h | h
  · rw [Cell.publish_committed] at h
    obtain ⟨a, ha⟩ := Option.ne_none_iff_exists'.mp h
    exact Cell.used_of_view ha
  · obtain ⟨j, hj⟩ := Option.ne_none_iff_exists'.mp h
    refine .inr ?_
    rw [Cell.Moves.publish.owner hj fun hji => Cell.publish_owner_ne _ _ (hji ▸ hj)]
    exact Option.some_ne_none j

/-- The ghost states know the locks, and numbers issued are in use at most once. -/
structure Orderly (number : κ → Option (σ × ℕ)) (w : World κ ρ σ O E) (g : ℕ → LockGhost κ σ) :
    Prop where
  owned : ∀ i k, (w.cell k).hold.owner = some i → k ∈ (g i).held
  held : ∀ i, (g i).failed = false → ∀ k ∈ (g i).held, (w.cell k).hold.owner = some i
  issued : ∀ i, ∀ d ∈ (g i).drawn, d.2 < w.seq d.1
  apart : ∀ i j, ∀ d ∈ (g i).drawn, d ∈ (g j).drawn → i = j
  used : ∀ k d, number k = some d → (w.cell k).Used → d.2 < w.seq d.1 ∧ ∀ i, d ∉ (g i).drawn

section Steps

variable {number : κ → Option (σ × ℕ)} {w w' : World κ ρ σ O E} {g : ℕ → LockGhost κ σ} {i : ℕ}
  {g' : LockGhost κ σ}

namespace Orderly

/-- After session `i` alone has moved. -/
theorem move (h : Orderly number w g)
    (howned : ∀ k, (w'.cell k).hold.owner = some i → k ∈ g'.held)
    (hheld : g'.failed = false → ∀ k ∈ g'.held, (w'.cell k).hold.owner = some i)
    (hothers : ∀ k, (w.cell k).Moves i (w'.cell k)) (hseq : ∀ s, w.seq s ≤ w'.seq s)
    (hissued : ∀ d ∈ g'.drawn, d.2 < w'.seq d.1)
    (hapart : ∀ d ∈ g'.drawn, ∀ j, d ∈ (g j).drawn → j = i)
    (hused : ∀ k d, number k = some d → (w'.cell k).Used →
      d ∉ g'.drawn ∧ ((w.cell k).Used ∨ d ∈ (g i).drawn)) :
    Orderly number w' (Function.update g i g') where
  owned := by
    -- what the other sessions hold and have drawn is as it was
    intro j k hk
    by_cases hj : j = i
    · subst hj
      rw [Function.update_self]
      exact howned k hk
    · rw [Function.update_of_ne hj]
      exact h.owned j k ((hothers k).owner hk hj)
  held := by
    intro j hfailed k hk
    by_cases hj : j = i
    · subst hj
      rw [Function.update_self] at hfailed hk
      exact hheld hfailed k hk
    · rw [Function.update_of_ne hj] at hfailed hk
      have howner := h.held j hfailed k hk
      rw [(hothers k).foreign howner hj]
      exact howner
  issued := by
    intro j d hd
    by_cases hj : j = i
    · subst hj
      rw [Function.update_self] at hd
      exact hissued d hd
    · rw [Function.update_of_ne hj] at hd
      exact Nat.lt_of_lt_of_le (h.issued j d hd) (hseq d.1)
  apart := by
    intro j l d hj hl
    by_cases hji : j = i
    · by_cases hli : l = i
      · exact hji.trans hli.symm
      · subst hji
        rw [Function.update_self] at hj
        rw [Function.update_of_ne hli] at hl
        exact (hapart d hj l hl).symm
    · rw [Function.update_of_ne hji] at hj
      by_cases hli : l = i
      · subst hli
        rw [Function.update_self] at hl
        exact hapart d hl j hj
      · rw [Function.update_of_ne hli] at hl
        exact h.apart j l d hj hl
  used := by
    intro k d hk hcell
    obtain ⟨hmine, hbefore⟩ := hused k d hk hcell
    -- a row in use was so before, or is the one under a number that `i` has drawn
    have hissued' : d.2 < w.seq d.1 ∧ ∀ j ≠ i, d ∉ (g j).drawn := by
      rcases hbefore with hcell' | hdrawn
      · exact ⟨(h.used k d hk hcell').1, fun j _ => (h.used k d hk hcell').2 j⟩
      · exact ⟨h.issued i d hdrawn, fun j hj hd => hj (h.apart i j d hdrawn hd).symm⟩
    refine ⟨Nat.lt_of_lt_of_le hissued'.1 (hseq d.1), fun j => ?_⟩
    by_cases hj : j = i
    · subst hj
      rw [Function.update_self]
      exact hmine
    · rw [Function.update_of_ne hj]
      exact hissued'.2 j hj

/-- A statement that leaves cells, sequences and the ghost of the locks as they are. -/
theorem stay (h : Orderly number w g) (hcell : ∀ k, w'.cell k = w.cell k)
    (hseq : w'.seq = w.seq) (hheld : g'.held = (g i).held) (hdrawn : g'.drawn = (g i).drawn)
    (hfailed : g'.failed = false → (g i).failed = false) :
    Orderly number w' (Function.update g i g') := by
  refine h.move (fun k hk => ?_) (fun hf k hk => ?_) (fun k => ?_) (fun s => ?_) (fun d hd => ?_)
    (fun d hd j hj => ?_) fun k d hk hused => ?_
  · rw [hcell] at hk
    exact hheld ▸ h.owned i k hk
  · rw [hcell]
    exact h.held i (hfailed hf) k (hheld ▸ hk)
  · rw [hcell]
    exact .stay
  · rw [hseq]
  · rw [hseq]
    exact h.issued i d (hdrawn ▸ hd)
  · exact h.apart j i d hj (hdrawn ▸ hd)
  · rw [hcell] at hused
    exact ⟨fun hd => (h.used k d hk hused).2 i (hdrawn ▸ hd), .inl hused⟩

/-- A lock is taken: of a row that is there, or of a key that is the session's to insert. -/
theorem taken (h : Orderly number w g) {k : κ} (hself : (w'.cell k).hold.owner = some i)
    (hcell : ∀ k', k' ≠ k → w'.cell k' = w.cell k') (hmoves : (w.cell k).Moves i (w'.cell k))
    (hseq : w'.seq = w.seq)
    (hnumber : ∀ d, number k = some d → (w.cell k).Used ∨ d ∈ (g i).drawn) :
    Orderly number w' (Function.update g i ((g i).take number k)) := by
  refine h.move (fun k' hk' => ?_) (fun hf k' hk' => ?_) (fun k' => ?_) (fun s => ?_)
    (fun d hd => ?_) (fun d hd j hj => ?_) fun k' d hk' hused => ?_
  · by_cases hk : k' = k
    · exact .inl hk
    · rw [hcell k' hk] at hk'
      exact .inr (h.owned i k' hk')
  · by_cases hk : k' = k
    · rwa [hk]
    · rw [hcell k' hk]
      exact h.held i hf k' (hk'.resolve_left hk)
  · by_cases hk : k' = k
    · rwa [hk]
    · rw [hcell k' hk]
      exact .stay
  · rw [hseq]
  · rw [hseq]
    exact h.issued i d hd.1
  · exact h.apart j i d hj hd.1
  · by_cases hk : k' = k
    · rw [hk] at hk' ⊢
      exact ⟨fun hd => hd.2 hk', hnumber d hk'⟩
    · rw [hcell k' hk] at hused
      exact ⟨fun hd => (h.used k' d hk' hused).2 i hd.1, .inl hused⟩

/-- All locks are freed. -/
theorem freed (h : Orderly number w g) (hmoves : ∀ k, (w.cell k).Moves i (w'.cell k))
    (howner : ∀ k, (w'.cell k).hold.owner ≠ some i)
    (hused : ∀ k, (w'.cell k).Used → (w.cell k).Used) (hseq : w'.seq = w.seq)
    (hdrawn : g'.drawn = (g i).drawn) (hheld : g'.failed = false → g'.held = ∅) :
    Orderly number w' (Function.update g i g') := by
  refine h.move (fun k hk => absurd hk (howner k)) (fun hf k hk => ?_) hmoves (fun s => ?_)
    (fun d hd => ?_) (fun d hd j hj => ?_) fun k d hk hcell => ?_
  · rw [hheld hf] at hk
    exact absurd hk (Set.notMem_empty k)
  · rw [hseq]
  · rw [hseq]
    exact h.issued i d (hdrawn ▸ hd)
  · exact h.apart j i d hj (hdrawn ▸ hd)
  · exact ⟨fun hd => (h.used k d hk (hused k hcell)).2 i (hdrawn ▸ hd), .inl (hused k hcell)⟩

/-- It does not matter what is shared. -/
theorem reshare {g₁ : LockGhost κ σ} (h : Orderly number w (Function.update g i g₁))
    (hheld : g'.held = g₁.held) (hdrawn : g'.drawn = g₁.drawn) (hfailed : g'.failed = g₁.failed) :
    Orderly number w (Function.update g i g') := by
  have hself : Function.update g i g₁ i = g₁ := Function.update_self i g₁ g
  have hstay : Orderly number w (Function.update (Function.update g i g₁) i g') := by
    refine h.stay (fun _ => rfl) rfl ?_ ?_ fun hf => ?_
    · rw [hself, hheld]
    · rw [hself, hdrawn]
    · rw [hself, ← hfailed, hf]
  rwa [Function.update_idem] at hstay

/-- A number is issued. -/
theorem drew [DecidableEq σ] (h : Orderly number w g) (s : σ) :
    Orderly number (w.nextval s)
      (Function.update g i { g i with drawn := insert (s, w.seq s) (g i).drawn }) := by
  have hle : ∀ s', w.seq s' ≤ (w.nextval s).seq s' := by
    intro s'
    by_cases hs : s' = s
    · subst hs
      simp [World.nextval]
    · simp [World.nextval, hs]
  refine h.move (h.owned i) (h.held i) (fun k => .stay) hle (fun d hd => ?_)
    (fun d hd j hj => ?_) fun k d hk hused => ⟨?_, .inl hused⟩
  · rcases hd with rfl | hd
    · simp [World.nextval]
    · exact Nat.lt_of_lt_of_le (h.issued i d hd) (hle d.1)
  · rcases hd with rfl | hd
    · exact absurd (h.issued j _ hj) (Nat.lt_irrefl _)
    · exact h.apart j i d hj hd
  · rintro (rfl | hd)
    · exact absurd (h.used k _ hk hused).1 (Nat.lt_irrefl _)
    · exact (h.used k d hk hused).2 i hd

end Orderly

end Steps

/-! ### Runs -/

/-- Processes that run `code` over one store. -/
def storeMachine [DecidableEq κ] [DecidableEq σ] (fault : F → ε)
    (ext : E → (x : X) → Y → Option (Except ε (XR x) × E))
    (code : Q → Program (Statement κ ρ σ O X) (Statement.Reply XR) ε A) :
    Machine (Statement κ ρ σ O X) (Statement.Reply XR) ε Q A (World κ ρ σ O E) (Choice F Y) where
  code := code
  exec := fun w i c x => exec fault ext w i c x
  abort := fun w i => w.release i

namespace Config

/-- Process `i` has more to do. -/
def Runs {C : Type} {R : C → Type} {W : Type} (cfg : Config C R ε Q A W) (i : ℕ) : Prop :=
  ∃ q calls c k, cfg.procs i = some ⟨q, calls, some (.call c k)⟩

/-- Nobody waits in a circle, locks and shares belong to processes that have more to do, and every
wait leads to one that does not wait. -/
structure DeadlockFree (refers : (k : κ) → ρ k → Option κ)
    (cfg : Config (Statement κ ρ σ O X) (Statement.Reply XR) ε Q A (World κ ρ σ O E)) : Prop where
  acyclic : ∀ i, ¬ Relation.TransGen (cfg.Waits refers) i i
  running : ∀ k i, (cfg.world.cell k).hold.owner = some i → cfg.Runs i
  sharing : ∀ k i, cfg.Shares refers i k → cfg.Runs i
  served : ∀ i j, cfg.Waits refers i j →
    ∃ l, Relation.TransGen (cfg.Waits refers) i l ∧ cfg.Runs l ∧ ∀ m, ¬ cfg.Waits refers l m

end Config

section Runs

variable [DecidableEq κ] [DecidableEq σ] [Preorder ι] {rank : κ → ι}
  {number : κ → Option (σ × ℕ)} {refers : (k : κ) → ρ k → Option κ} {fault : F → ε}
  {ext : E → (x : X) → Y → Option (Except ε (XR x) × E)} {w w' : World κ ρ σ O E}
  {g : ℕ → LockGhost κ σ} {i : ℕ}

/-- **A statement** that the discipline allows keeps the locks orderly. -/
theorem Orderly.act (h : Orderly number w g) {c : Statement κ ρ σ O X}
    {r : Except ε (c.Reply XR)} {x : Choice F Y} (hguard : (g i).Allows rank number refers c)
    (he : exec fault ext w i c x = some (r, w')) :
    Orderly number w' (Function.update g i ((g i).next number refers c r)) := by
  have hmoves := exec_moves he
  -- a row that is found and locked
  have hrow : ∀ {k : κ} {p : ρ k → Bool} {a : ρ k}, w.acquire i k p = .row a →
      (w.cell k).Open i ∧ ∀ d, number k = some d → (w.cell k).Used ∨ d ∈ (g i).drawn := by
    intro k p a ha
    obtain ⟨hview, -, hopen⟩ := World.acquire_row ha
    exact ⟨hopen, fun d _ => .inl (Cell.used_of_view hview)⟩
  cases c with
  | select k p =>
    obtain ⟨rfl, -⟩ := exec_select he
    exact h.stay (fun _ => rfl) rfl rfl rfl id
  | scan p le =>
    obtain ⟨rfl, -⟩ := exec_scan he
    exact h.stay (fun _ => rfl) rfl rfl rfl id
  | lock k p =>
    obtain ⟨rfl, e, rfl⟩ | ⟨rfl, rfl, -⟩ | ⟨a, rfl, rfl, ha⟩ := exec_lock he
    · exact h.stay (fun _ => rfl) rfl rfl rfl id
    · exact h.stay (fun _ => rfl) rfl rfl rfl id
    · refine h.taken ?_ (fun k' hk' => World.lock_cell_of_ne w i hk') (hmoves k) rfl (hrow ha).2
      rw [World.lock_cell_self]
      exact Cell.lock_owner (hrow ha).1
  | tryLock k p =>
    obtain ⟨rfl, e, rfl⟩ | ⟨rfl, rfl⟩ | ⟨a, rfl, rfl, ha⟩ := exec_tryLock he
    · exact h.stay (fun _ => rfl) rfl rfl rfl id
    · exact h.stay (fun _ => rfl) rfl rfl rfl id
    · refine h.taken ?_ (fun k' hk' => World.lock_cell_of_ne w i hk') (hmoves k) rfl (hrow ha).2
      rw [World.lock_cell_self]
      exact Cell.lock_owner (hrow ha).1
  | update k p f =>
    obtain ⟨rfl, e, rfl⟩ | ⟨rfl, rfl, -⟩ | ⟨a, rfl, rfl, ha⟩ := exec_update he
    · exact h.stay (fun _ => rfl) rfl rfl rfl id
    · exact h.stay (fun _ => rfl) rfl rfl rfl id
    · refine h.taken ?_ (fun k' hk' => World.write_cell_of_ne w i hk' _) (hmoves k) rfl
        (hrow ha).2
      rw [World.write_cell_self, Cell.write_hold, Hold.owner_written]
  | delete k p =>
    obtain ⟨rfl, e, rfl⟩ | ⟨rfl, rfl, -⟩ | ⟨a, rfl, rfl, ha⟩ := exec_delete he
    · exact h.stay (fun _ => rfl) rfl rfl rfl id
    · exact h.stay (fun _ => rfl) rfl rfl rfl id
    · refine h.taken ?_ (fun k' hk' => World.write_cell_of_ne w i hk' _) (hmoves k) rfl
        (hrow ha).2
      rw [World.write_cell_self, Cell.write_hold, Hold.owner_written]
  | insert k v =>
    obtain ⟨rfl, e, rfl⟩ | ⟨rfl, rfl, -⟩ | ⟨rfl, rfl, -⟩ := exec_insert he
    · exact h.stay (fun _ => rfl) rfl rfl rfl id
    · exact h.stay (fun _ => rfl) rfl rfl rfl id
    · refine Orderly.reshare (h.taken (k := k) ?_
        (fun k' hk' => World.write_cell_of_ne w i hk' _) (hmoves k) rfl fun d hd => ?_) rfl rfl rfl
      · rw [World.write_cell_self, Cell.write_hold, Hold.owner_written]
      · rcases hguard.1 with ⟨hnone, -⟩ | ⟨d', hdrawn, hnumber⟩
        · cases hnone.symm.trans hd
        · rw [Option.some_inj.mp (hd.symm.trans hnumber)]
          exact .inr hdrawn
  | nextval s =>
    obtain ⟨rfl, e, rfl⟩ | ⟨rfl, rfl⟩ := exec_nextval he
    · exact h.stay (fun _ => rfl) rfl rfl rfl id
    · exact h.drew s
  | commit out =>
    have hfreed : w' = w.commit i out → ∀ {g' : LockGhost κ σ}, g'.drawn = (g i).drawn →
        (g'.failed = false → g'.held = ∅) → Orderly number w' (Function.update g i g') := by
      rintro rfl g' hdrawn hheld
      exact h.freed hmoves (fun k => Cell.publish_owner_ne _ _) (fun k => Cell.used_of_publish) rfl
        hdrawn hheld
    obtain ⟨rfl, e, rfl⟩ | hw := exec_commit he
    · exact h.stay (fun _ => rfl) rfl rfl rfl fun hf => by cases hf
    · rcases r with e | u
      · exact hfreed hw rfl fun hf => by cases hf
      · exact hfreed hw rfl fun _ => rfl
  | rollback =>
    obtain ⟨rfl, rfl⟩ := exec_rollback he
    exact h.freed hmoves (fun k => Cell.release_owner_ne _ _) (fun k => Cell.used_of_release) rfl
      rfl fun _ => rfl
  | ext y =>
    obtain ⟨rfl, -⟩ | ⟨d, env, -, rfl⟩ := exec_ext he
    · exact h.stay (fun _ => rfl) rfl rfl rfl id
    · exact h.stay (fun _ => rfl) rfl rfl rfl id

variable {code : Q → Program (Statement κ ρ σ O X) (Statement.Reply XR) ε A}
  {allowed : Config (Statement κ ρ σ O X) (Statement.Reply XR) ε Q A (World κ ρ σ O E) → Q → Prop}

/-- A process ends without locks. -/
def Unlocked (_ : Q) (_ : Except ε A) (g : LockGhost κ σ) : Prop := g.locks = (∅, ∅)

/-- The locks are orderly and the shares known, and who has not arrived or has died has none. -/
structure LocksKept (number : κ → Option (σ × ℕ)) (refers : (k : κ) → ρ k → Option κ)
    (cfg : Config (Statement κ ρ σ O X) (Statement.Reply XR) ε Q A (World κ ρ σ O E))
    (g : ℕ → LockGhost κ σ) : Prop where
  orderly : Orderly number cfg.world g
  gone : ∀ i, (cfg.procs i = none ∨ ∃ q calls, cfg.procs i = some ⟨q, calls, none⟩) →
    (g i).held = ∅
  shares : ∀ i k, cfg.Shares refers i k → k ∈ (g i).shared

omit [DecidableEq κ] [DecidableEq σ] in
/-- What is shared after a statement was shared before it, or is shared by it. -/
theorem LockGhost.shared_next {g : LockGhost κ σ} {c : Statement κ ρ σ O X}
    {r : Except ε (c.Reply XR)}
    {calls : List ((c : Statement κ ρ σ O X) × Except ε (c.Reply XR))}
    (h : ∀ k ∈ sharedRows refers calls, k ∈ g.shared) :
    ∀ k ∈ sharedRows refers (⟨c, r⟩ :: calls), k ∈ (g.next number refers c r).shared := by
  intro k hk
  -- an insert adds the row it refers to; the end of the transaction drops all
  cases c with
  | commit out =>
    rcases r with e | u
    · exact h k hk
    · cases hk
  | rollback => cases hk
  | insert k₁ v =>
    rcases r with e | _ | _
    · exact h k hk
    · exact h k hk
    · rcases List.mem_append.mp hk with hk | hk
      · exact .inl (Option.mem_toList.mp hk)
      · exact .inr (h k hk)
  | nextval s =>
    rcases r with e | n
    · exact h k hk
    · exact h k hk
  | lock k₁ p =>
    rcases r with e | _ | a
    · exact h k hk
    · exact h k hk
    · exact h k hk
  | tryLock k₁ p =>
    rcases r with e | _ | a
    · exact h k hk
    · exact h k hk
    · exact h k hk
  | update k₁ p f =>
    rcases r with e | _ | a
    · exact h k hk
    · exact h k hk
    · exact h k hk
  | delete k₁ p =>
    rcases r with e | _ | a
    · exact h k hk
    · exact h k hk
    · exact h k hk
  | _ => exact h k hk

/-- Programs that meet the discipline keep the locks orderly. -/
theorem lockOrder_sound (hcode : ∀ cfg q, allowed cfg q →
    (code q).Meets (lockOrder rank number refers) .idle (Unlocked q)) :
    Sound (storeMachine fault ext code) allowed (lockOrder rank number refers) .idle Unlocked
      (fun _ _ => True) (LocksKept number refers) where
  start := by
    -- a process arrives without locks
    rintro cfg g i q ⟨h, hgone, hshares⟩ hfree hidle hq
    refine ⟨.idle, hcode cfg q hq, ?_, fun j hj => ?_, fun j k => ?_⟩
    · rw [← hidle]
      exact h.stay (fun _ => rfl) rfl rfl rfl id
    · by_cases hji : j = i
      · subst hji
        rw [Function.update_self]
        rfl
      · rw [Config.set_procs_of_ne _ hji] at hj
        rw [Function.update_of_ne hji]
        exact hgone j hj
    · rintro ⟨q', calls, rest, hj, hk⟩
      by_cases hji : j = i
      · subst hji
        rw [Config.set_procs_self] at hj
        cases hj
        cases hk
      · rw [Config.set_procs_of_ne _ hji] at hj
        rw [Function.update_of_ne hji]
        exact hshares j k ⟨q', calls, rest, hj, hk⟩
  act := by
    rintro cfg g i q calls c rest x r w ⟨h, hgone, hshares⟩ hp hguard he -
    refine ⟨trivial, ?_⟩
    rintro g' rfl
    refine ⟨h.act hguard he, fun j hj => ?_, fun j k => ?_⟩
    · by_cases hji : j = i
      · subst hji
        rw [Config.set_procs_self] at hj
        obtain hj | ⟨q', calls', hj⟩ := hj
        · cases hj
        · cases hj
      · rw [Config.set_procs_of_ne _ hji] at hj
        rw [Function.update_of_ne hji]
        exact hgone j hj
    · rintro ⟨q', calls', rest', hj, hk⟩
      by_cases hji : j = i
      · subst hji
        rw [Config.set_procs_self] at hj
        cases hj
        rw [Function.update_self]
        exact LockGhost.shared_next (fun k hk => hshares j k ⟨q, calls, _, hp, hk⟩) k hk
      · rw [Config.set_procs_of_ne _ hji] at hj
        rw [Function.update_of_ne hji]
        exact hshares j k ⟨q', calls', rest', hj, hk⟩
  crash := by
    rintro cfg g i q calls c k ⟨h, hgone, hshares⟩ -
    -- a crash gives its locks back
    refine ⟨{ g i with held := ∅, failed := false }, ?_, fun j hj => ?_, fun j k => ?_⟩
    · exact h.freed (fun k => .release) (fun k => Cell.release_owner_ne _ _)
        (fun k => Cell.used_of_release) rfl rfl fun _ => rfl
    · by_cases hji : j = i
      · subst hji
        rw [Function.update_self]
      · rw [Config.set_procs_of_ne _ hji] at hj
        rw [Function.update_of_ne hji]
        exact hgone j hj
    · rintro ⟨q', calls', rest', hj, hk⟩
      by_cases hji : j = i
      · subst hji
        rw [Config.set_procs_self] at hj
        cases hj
      · rw [Config.set_procs_of_ne _ hji] at hj
        rw [Function.update_of_ne hji]
        exact hshares j k ⟨q', calls', rest', hj, hk⟩

section Waits

variable {cfg : Config (Statement κ ρ σ O X) (Statement.Reply XR) ε Q A (World κ ρ σ O E)}

omit [DecidableEq κ] [DecidableEq σ] in
/-- A statement that waits for a row lock asks for one above all locks of its session. -/
theorem World.WaitsFor.above (h : Orderly number w g) {c : Statement κ ρ σ O X} {j : ℕ}
    (hguard : (g i).Allows rank number refers c) (hwaits : w.WaitsFor i c j) :
    ∃ k ∈ (g j).held, ∀ k' ∈ (g i).held ∪ (g i).shared, rank k' < rank k := by
  obtain ⟨k, hclaimed, howner, hne⟩ := hwaits.owner
  refine ⟨k, h.owned j k howner, ?_⟩
  have hclaim : (g i).MayClaim rank k →
      ∀ k' ∈ (g i).held ∪ (g i).shared, rank k' < rank k := by
    rintro ⟨hfailed, hmine | habove⟩
    · exact absurd (Option.some_inj.mp (howner.symm.trans (h.held i hfailed k hmine))) hne
    · exact habove
  cases c with
  | lock k₁ p =>
    obtain rfl := Option.some_inj.mp hclaimed
    exact hclaim hguard
  | update k₁ p f =>
    obtain rfl := Option.some_inj.mp hclaimed
    exact hclaim hguard
  | delete k₁ p =>
    obtain rfl := Option.some_inj.mp hclaimed
    exact hclaim hguard
  | insert k₁ v =>
    obtain rfl := Option.some_inj.mp hclaimed
    rcases hguard.1 with ⟨-, hmay⟩ | ⟨d, hdrawn, hnumber⟩
    · exact hclaim hmay
    · -- the number is the session's own, so nobody has used its key
      have hused : (w.cell k₁).Used := .inr (by rw [howner]; exact Option.some_ne_none j)
      exact absurd hdrawn ((h.used k₁ d hnumber hused).2 i)
  | _ => cases hclaimed

omit [DecidableEq κ] [DecidableEq σ] in
/-- The lock a process waits for is above all that it has. -/
theorem Config.Waits.above (hJ : LocksKept number refers cfg g)
    (hall : ∀ i, Process.Agrees (lockOrder rank number refers) Unlocked .idle (cfg.procs i) (g i))
    {i j : ℕ} (h : cfg.Waits refers i j) :
    ∃ k ∈ (g j).held ∪ (g j).shared, ∀ k' ∈ (g i).held ∪ (g i).shared, rank k' < rank k := by
  have hallows : ∀ {q calls} {c : Statement κ ρ σ O X} {rest}, cfg.procs i = some ⟨q, calls,
      some (.call c rest)⟩ → (g i).Allows rank number refers c := by
    intro q calls c rest hp
    have hi := hall i
    rw [hp] at hi
    exact hi.1
  -- what is waited for is above all that the waiting process has, and in the hands of the other
  cases h with
  | lock runs waits =>
    obtain ⟨k, hk, habove⟩ := waits.above hJ.orderly (hallows runs)
    exact ⟨k, .inl hk, habove⟩
  | @check q calls c rest k runs hrefers waits =>
    cases c with
    | insert k₁ v =>
      obtain ⟨-, hmay⟩ := (hallows runs).2 k hrefers
      have hlock : (g i).Allows rank number refers
          (.lock k fun _ => true : Statement κ ρ σ O X) := hmay
      obtain ⟨k', hk', habove⟩ := waits.above hJ.orderly hlock
      exact ⟨k', .inl hk', habove⟩
    | _ => cases hrefers
  | @shares q calls c rest k p runs hexcludes found unlocked hshares ne =>
    refine ⟨k, .inr (hJ.shares j k hshares), ?_⟩
    have hclaim : (g i).MayClaim rank k →
        ∀ k' ∈ (g i).held ∪ (g i).shared, rank k' < rank k := by
      rintro ⟨hfailed, hmine | habove⟩
      · exact absurd (hJ.orderly.held i hfailed k hmine) unlocked
      · exact habove
    cases c with
    | lock k₁ p₁ =>
      cases hexcludes
      exact hclaim (hallows runs)
    | delete k₁ p₁ =>
      cases hexcludes
      exact hclaim (hallows runs)
    | _ => cases hexcludes

omit [DecidableEq κ] [DecidableEq σ] in
/-- Along a chain of waits the locks go up. -/
theorem waits_chain (hJ : LocksKept number refers cfg g)
    (hall : ∀ i, Process.Agrees (lockOrder rank number refers) Unlocked .idle (cfg.procs i) (g i))
    {i j : ℕ} (h : Relation.TransGen (cfg.Waits refers) i j) :
    ∃ k ∈ (g j).held ∪ (g j).shared, ∀ k' ∈ (g i).held ∪ (g i).shared, rank k' < rank k := by
  induction h with
  | single h => exact h.above hJ hall
  | tail _ h ih =>
    obtain ⟨k₁, hk₁, habove₁⟩ := ih
    obtain ⟨k₂, hk₂, habove₂⟩ := h.above hJ hall
    exact ⟨k₂, hk₂, fun k' hk' => lt_trans (habove₁ k' hk') (habove₂ k₁ hk₁)⟩

omit [DecidableEq κ] [DecidableEq σ] in
/-- A process whose program is not at its end has more to do, if it has a lock. -/
theorem runs_of_locks
    (hall : ∀ i, Process.Agrees (lockOrder rank number refers) Unlocked .idle (cfg.procs i) (g i))
    {k : κ} {q : Q} {calls : List ((c : Statement κ ρ σ O X) × Except ε (c.Reply XR))}
    {rest : Program (Statement κ ρ σ O X) (Statement.Reply XR) ε A}
    (hp : cfg.procs i = some ⟨q, calls, some rest⟩) (hk : k ∈ (g i).held ∪ (g i).shared) :
    cfg.Runs i := by
  have hi := hall i
  rw [hp] at hi
  have hends : ∀ r : Except ε A, ¬ Unlocked q r (g i) := by
    intro r h
    rw [(Prod.mk.inj h).1, (Prod.mk.inj h).2, Set.empty_union] at hk
    exact Set.notMem_empty k hk
  cases rest with
  | ret a => exact absurd hi (hends (.ok a))
  | raise e => exact absurd hi (hends (.error e))
  | call c rest => exact ⟨q, calls, c, rest, hp⟩

omit [DecidableEq κ] [DecidableEq σ] in
/-- Locks belong to processes that have more to do. -/
theorem runs_of_owner (hJ : LocksKept number refers cfg g)
    (hall : ∀ i, Process.Agrees (lockOrder rank number refers) Unlocked .idle (cfg.procs i) (g i))
    {k : κ} {i : ℕ} (howner : (cfg.world.cell k).hold.owner = some i) : cfg.Runs i := by
  have hk := hJ.orderly.owned i k howner
  have hempty : (g i).held ≠ ∅ := fun h => Set.notMem_empty k (h ▸ hk)
  rcases hp : cfg.procs i with _ | ⟨q, calls, _ | rest⟩
  · exact absurd (hJ.gone i (.inl hp)) hempty
  · exact absurd (hJ.gone i (.inr ⟨q, calls, hp⟩)) hempty
  · exact runs_of_locks hall hp (.inl hk)

omit [DecidableEq κ] [DecidableEq σ] in
/-- So do shares. -/
theorem runs_of_shares (hJ : LocksKept number refers cfg g)
    (hall : ∀ i, Process.Agrees (lockOrder rank number refers) Unlocked .idle (cfg.procs i) (g i))
    {k : κ} {i : ℕ} (h : cfg.Shares refers i k) : cfg.Runs i := by
  obtain ⟨q, calls, rest, hp, hk⟩ := id h
  exact runs_of_locks hall hp (.inr (hJ.shares i k h))

omit [DecidableEq κ] [DecidableEq σ] in
/-- Whoever is waited for has more to do. -/
theorem Config.Waits.runs (hJ : LocksKept number refers cfg g)
    (hall : ∀ i, Process.Agrees (lockOrder rank number refers) Unlocked .idle (cfg.procs i) (g i))
    {i j : ℕ} (h : cfg.Waits refers i j) : cfg.Runs j := by
  cases h with
  | lock runs waits =>
    obtain ⟨k, -, howner, -⟩ := waits.owner
    exact runs_of_owner hJ hall howner
  | check runs hrefers waits =>
    obtain ⟨k, -, howner, -⟩ := waits.owner
    exact runs_of_owner hJ hall howner
  | shares runs hexcludes found unlocked hshares ne => exact runs_of_shares hJ hall hshares

omit [DecidableEq κ] [DecidableEq σ] in
/-- Orderly locks leave no deadlock. -/
theorem LocksKept.deadlockFree [WellFoundedGT ι] (hJ : LocksKept number refers cfg g)
    (hall : ∀ i,
      Process.Agrees (lockOrder rank number refers) Unlocked .idle (cfg.procs i) (g i)) :
    cfg.DeadlockFree refers where
  acyclic := by
    intro i h
    obtain ⟨k, hk, habove⟩ := waits_chain hJ hall h
    exact lt_irrefl _ (habove k hk)
  running := fun _ _ howner => runs_of_owner hJ hall howner
  sharing := fun _ _ hshares => runs_of_shares hJ hall hshares
  served := by
    -- by induction on the height of a lock that whoever is waited for has
    have hserved : ∀ height : ι, ∀ i j k, rank k = height → k ∈ (g j).held ∪ (g j).shared →
        cfg.Waits refers i j → ∃ l, Relation.TransGen (cfg.Waits refers) i l ∧ cfg.Runs l ∧
          ∀ m, ¬ cfg.Waits refers l m := by
      intro height
      induction height using WellFoundedGT.induction with
      | ind height ih =>
        rintro i j k rfl hk hwaits
        by_cases hj : ∃ m, cfg.Waits refers j m
        · obtain ⟨m, hm⟩ := hj
          obtain ⟨k', hk', habove⟩ := hm.above hJ hall
          obtain ⟨l, hl, hrest⟩ := ih (rank k') (habove k hk) j m k' rfl hk' hm
          exact ⟨l, .head hwaits hl, hrest⟩
        · exact ⟨j, .single hwaits, hwaits.runs hJ hall, fun m hm => hj ⟨m, hm⟩⟩
    intro i j hwaits
    obtain ⟨k, hk, -⟩ := hwaits.above hJ hall
    exact hserved (rank k) i j k rfl hk hwaits

end Waits

/-- **No deadlock**, at any moment of any run of programs that meet the discipline. -/
theorem Run.deadlockFree [WellFoundedGT ι] (run : Run (storeMachine fault ext code) allowed)
    (hcode : ∀ cfg q, allowed cfg q →
      (code q).Meets (lockOrder rank number refers) .idle (Unlocked q))
    (hunlocked : ∀ k, ((run.state 0).world.cell k).hold.owner = none)
    (hbelow : ∀ k d, number k = some d → (run.state 0).world.row k ≠ none →
      d.2 < (run.state 0).world.seq d.1) (n : ℕ) :
    (run.state n).DeadlockFree refers := by
  have hinit : LocksKept number refers (run.state 0) fun _ => .idle := by
    refine ⟨⟨fun i k hk => ?_, fun i _ k hk => absurd hk (Set.notMem_empty k),
      fun i d hd => absurd hd (Set.notMem_empty d),
      fun i j d hd => absurd hd (Set.notMem_empty d), fun k d hk hused => ?_⟩, fun i _ => rfl,
      fun i k hshares => ?_⟩
    · cases (hunlocked k).symm.trans hk
    · rcases hused with hrow | howner
      · exact ⟨hbelow k d hk hrow, fun i hd => absurd hd (Set.notMem_empty d)⟩
      · exact absurd (hunlocked k) howner
    · obtain ⟨q, calls, rest, hp, -⟩ := hshares
      cases (run.empty i).symm.trans hp
  obtain ⟨g, hJ, hall⟩ := (lockOrder_sound hcode).run run hinit n fun _ _ => trivial
  exact hJ.deadlockFree hall

end Runs

end Concurrency
