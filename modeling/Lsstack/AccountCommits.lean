/-
What the transactions of the account side do to the users.

`AccountAsserts` ties the ghost state of a process to the database: the rows it
has locked and written, the id it has drawn, the result it has committed.
`account_relyGuarantee` shows that every process keeps it.

* `AccountStep` — what a commit makes of the users and the email index;
* **`AccountRun.step`** — a step leaves the rows and the log alone, or it is a
  commit (`AccountCommit`);
* **`AccountRun.invariant`** — along a run every process fits its ghost state,
  and the email index is that of the users.
-/
import Lsstack.AccountHandlers

namespace Lsstack

open Concurrency

/-! ### Commits -/

/-- The row after a hash upgrade. -/
def UserModel.Rehashes (isHash : String → String → Bool) (row row' : UserModel) : Prop :=
  ∃ passwordHash stamp, row' = row.rehashed passwordHash stamp ∧
    ∃ password, isHash password row.passwordHash = true ∧ isHash password passwordHash = true

/-- The row after a password replacement. -/
def UserModel.Replaces (row row' : UserModel) : Prop :=
  ∃ passwordHash stamp, row' = row.replaced passwordHash stamp

/-- What a commit makes of the users and of the email index, by what its
transaction has done. -/
inductive AccountStep (isHash : String → String → Bool) (w w' : Db) : AccountEffect → Prop
  | nothing (users : ∀ id, w'.row (.user id) = w.row (.user id))
      (emails : ∀ address, w'.row (.email address) = w.row (.email address)) :
      AccountStep isHash w w' .nothing
  | locked {id : ℕ} {row : UserModel} (was : w.row (.user id) = some row)
      (users : ∀ id, w'.row (.user id) = w.row (.user id))
      (emails : ∀ address, w'.row (.email address) = w.row (.email address)) :
      AccountStep isHash w w' (.locked id row)
  | rehashed {id : ℕ} {row row' : UserModel} (was : w.row (.user id) = some row)
      (becomes : w'.row (.user id) = some row') (rehashes : row.Rehashes isHash row')
      (users : ∀ id', id' ≠ id → w'.row (.user id') = w.row (.user id'))
      (emails : ∀ address, w'.row (.email address) = w.row (.email address)) :
      AccountStep isHash w w' (.rehashed id row row')
  | replaced {id : ℕ} {row row' : UserModel} (was : w.row (.user id) = some row)
      (becomes : w'.row (.user id) = some row') (replaces : row.Replaces row')
      (users : ∀ id', id' ≠ id → w'.row (.user id') = w.row (.user id'))
      (emails : ∀ address, w'.row (.email address) = w.row (.email address)) :
      AccountStep isHash w w' (.replaced id row row')
  | inserted {id : ℕ} {row : UserModel} (was : w.row (.user id) = none)
      (free : w.row (.email row.emailNormalized) = none)
      (becomes : w'.row (.user id) = some row)
      (indexed : w'.row (.email row.emailNormalized) = some id)
      (users : ∀ id', id' ≠ id → w'.row (.user id') = w.row (.user id'))
      (emails : ∀ address, address ≠ row.emailNormalized →
        w'.row (.email address) = w.row (.email address)) :
      AccountStep isHash w w' (.inserted id row)

/-- The email of the user under an id. -/
def emailOf (w : Db) (id : ℕ) : Option String :=
  (w.row (.user id)).map UserModel.emailNormalized

/-- The email index is that of the users. -/
def Indexed (w : Db) : Prop :=
  ∀ address id, w.row (.email address) = some id ↔ emailOf w id = some address

/-- Users stay under their id and email, and so do the entries of the index. -/
structure KeepsUsers (w w' : Db) : Prop where
  users : ∀ id address, emailOf w id = some address → emailOf w' id = some address
  emails : ∀ address id, w.row (.email address) = some id → w'.row (.email address) = some id

namespace AccountStep

variable {isHash : String → String → Bool} {w w' : Db} {effect : AccountEffect}

/-- The emails stay, or a new one is added under a new id. -/
theorem emails (h : AccountStep isHash w w' effect) :
    ((∀ id, emailOf w' id = emailOf w id) ∧
      ∀ address, w'.row (.email address) = w.row (.email address)) ∨
    ∃ id address, emailOf w id = none ∧ w.row (.email address) = none ∧
      emailOf w' id = some address ∧ w'.row (.email address) = some id ∧
      (∀ id', id' ≠ id → emailOf w' id' = emailOf w id') ∧
      ∀ address', address' ≠ address → w'.row (.email address') = w.row (.email address') := by
  have hrow : ∀ {id}, w'.row (.user id) = w.row (.user id) → emailOf w' id = emailOf w id :=
    fun h => congrArg (Option.map UserModel.emailNormalized) h
  have hrest : ∀ {id : ℕ} {row row' : UserModel}, w.row (.user id) = some row →
      w'.row (.user id) = some row' → row'.emailNormalized = row.emailNormalized →
      (∀ id', id' ≠ id → w'.row (.user id') = w.row (.user id')) →
      ∀ id', emailOf w' id' = emailOf w id' := by
    intro id row row' was becomes hemail users id'
    by_cases hid : id' = id
    · rw [hid, emailOf, emailOf, was, becomes, Option.map_some, Option.map_some, hemail]
    · exact hrow (users id' hid)
  -- a change of a hash or a version leaves the emails alone; only an insertion adds one
  cases h with
  | nothing users emails => exact .inl ⟨fun id => hrow (users id), emails⟩
  | locked was users emails => exact .inl ⟨fun id => hrow (users id), emails⟩
  | rehashed was becomes rehashes users emails =>
    obtain ⟨_, _, rfl, -⟩ := rehashes
    exact .inl ⟨hrest was becomes rfl users, emails⟩
  | replaced was becomes replaces users emails =>
    obtain ⟨_, _, rfl⟩ := replaces
    exact .inl ⟨hrest was becomes rfl users, emails⟩
  | @inserted id row was free becomes indexed users emails =>
    refine .inr ⟨id, row.emailNormalized, ?_, free, ?_, indexed,
      fun id' hid => hrow (users id' hid), emails⟩
    · rw [emailOf, was, Option.map_none]
    · rw [emailOf, becomes, Option.map_some]

/-- **A commit keeps every user's email.** -/
theorem keepsUsers (h : AccountStep isHash w w' effect) : KeepsUsers w w' := by
  obtain ⟨husers, hemails⟩ | ⟨id, address, hnone, hfree, -, -, husers, hemails⟩ := h.emails
  · exact ⟨fun id _ h => (husers id).trans h, fun address _ h => (hemails address).trans h⟩
  · refine ⟨fun id' address' h => ?_, fun address' id' h => ?_⟩
    · have hid : id' ≠ id := by
        rintro rfl
        cases hnone.symm.trans h
      exact (husers id' hid).trans h
    · have haddress : address' ≠ address := by
        rintro rfl
        cases hfree.symm.trans h
      exact (hemails address' haddress).trans h

/-- **A commit keeps the index that of the users.** -/
theorem keepsIndex (h : AccountStep isHash w w' effect) (hw : Indexed w) : Indexed w' := by
  obtain ⟨husers, hemails⟩ | ⟨id, address, hnone, hfree, huser, hindexed, husers, hemails⟩ :=
    h.emails
  · intro address id
    rw [husers, hemails]
    exact hw address id
  intro address' id'
  by_cases hid : id' = id <;> by_cases haddress : address' = address
  · subst hid haddress
    exact ⟨fun _ => huser, fun _ => hindexed⟩
  · subst hid
    rw [hemails address' haddress, hw, hnone, huser, Option.some_inj]
    exact ⟨(fun h => by cases h), fun h => absurd h.symm haddress⟩
  · subst haddress
    rw [husers id' hid, ← hw, hfree, hindexed, Option.some_inj]
    exact ⟨fun h => absurd h.symm hid, fun h => by cases h⟩
  · rw [hemails address' haddress, husers id' hid]
    exact hw address' id'

end AccountStep

/-! ### Locks -/

namespace AccountEffect

/-- The cells a transaction has locked for certain. -/
def keys : AccountEffect → List Key
  | .locked id _ => [.user id]
  | .rehashed id _ _ => [.user id]
  | .replaced id _ _ => [.user id]
  | .indexed _ address => [.email address]
  | .inserted id row => [.email row.emailNormalized, .user id]
  | _ => []

/-- The id it has drawn. -/
def drawnId : AccountEffect → Option ℕ
  | .drawn id => some id
  | .indexed id _ => some id
  | .inserted id _ => some id
  | _ => none

/-- The row its locking read has returned. -/
def lockRead : AccountEffect → Option (ℕ × UserModel)
  | .locked id row => some (id, row)
  | .rehashed id row _ => some (id, row)
  | .replaced id row _ => some (id, row)
  | _ => none

/-- What session `i` has locked and written of the users. -/
def Holds (isHash : String → String → Bool) (effect : AccountEffect) (i : ℕ) :
    (k : Key) → Cell (Row k) → Prop
  | .user id, c =>
    match effect with
    | .locked id' row => id = id' ∧ c.committed = some row ∧ c.view i = some row
    | .rehashed id' row row' => id = id' ∧ c.committed = some row ∧ c.view i = some row' ∧
        row.Rehashes isHash row'
    | .replaced id' row row' => id = id' ∧ c.committed = some row ∧ c.view i = some row' ∧
        row.Replaces row'
    | .inserted id' row => id = id' ∧ c.committed = none ∧ c.view i = some row
    | .over => True
    | _ => False
  | .email address, c =>
    match effect with
    | .indexed id address' => address = address' ∧ c.committed = none ∧ c.view i = some id
    | .inserted id row => address = row.emailNormalized ∧ c.committed = none ∧ c.view i = some id
    | .over => True
    | _ => False
  | _, _ => True

/-- Its transaction may commit. -/
def Done : AccountEffect → Prop
  | .nothing => True
  | .locked _ _ => True
  | .rehashed _ _ _ => True
  | .replaced _ _ _ => True
  | .inserted _ _ => True
  | _ => False

/-- It has locked no user. -/
def Unlocked : AccountEffect → Prop
  | .nothing => True
  | .found _ _ => True
  | .drawn _ => True
  | _ => False

end AccountEffect

/-- Users and entries of the index, as opposed to tasks and messages. -/
def Key.ofUsers : Key → Prop
  | .user _ => True
  | .email _ => True
  | _ => False

theorem AccountEffect.ofUsers_of_mem_keys {effect : AccountEffect} {k : Key}
    (hk : k ∈ effect.keys) : k.ofUsers := by
  cases effect
  case inserted id row =>
    obtain rfl | hk := List.mem_cons.mp hk
    · trivial
    · obtain rfl := List.mem_singleton.mp hk
      trivial
  all_goals first
    | exact absurd hk List.not_mem_nil
    | (obtain rfl := List.mem_singleton.mp hk; trivial)

/-- A user is there after a commit because it was before, or under a drawn id. -/
theorem AccountStep.user_of_user {isHash : String → String → Bool} {w w' : Db}
    {effect : AccountEffect} (h : AccountStep isHash w w' effect) {id : ℕ} {row' : UserModel}
    (hrow : w'.row (.user id) = some row') :
    (∃ row, w.row (.user id) = some row) ∨ effect.drawnId = some id := by
  have hrest : ∀ {id₀ : ℕ} {row : UserModel}, w.row (.user id₀) = some row →
      (∀ id', id' ≠ id₀ → w'.row (.user id') = w.row (.user id')) →
      ∃ row, w.row (.user id) = some row := by
    intro id₀ row was users
    by_cases hid : id = id₀
    · exact ⟨row, hid ▸ was⟩
    · exact ⟨row', (users id hid).symm.trans hrow⟩
  cases h with
  | nothing users emails => exact .inl ⟨row', (users id).symm.trans hrow⟩
  | locked was users emails => exact .inl ⟨row', (users id).symm.trans hrow⟩
  | rehashed was becomes rehashes users emails => exact .inl (hrest was users)
  | replaced was becomes replaces users emails => exact .inl (hrest was users)
  | @inserted id₀ row was free becomes indexed users emails =>
    by_cases hid : id = id₀
    · exact .inr (hid ▸ rfl)
    · exact .inl ⟨row', (users id hid).symm.trans hrow⟩

/-- What is known of the locks of a session. -/
structure AccountLocks (isHash : String → String → Bool) (w : Db) (i : ℕ)
    (effect : AccountEffect) : Prop where
  held : w.HeldBy i (effect.Holds isHash i)
  owns : ∀ k ∈ effect.keys, (w.cell k).hold.owner = some i

namespace AccountLocks

variable {isHash : String → String → Bool} {w w' : Db} {i : ℕ} {effect effect' : AccountEffect}

theorem not_holds (hu : effect.Unlocked) {k : Key} (hk : k.ofUsers) {c : Cell (Row k)} :
    ¬ effect.Holds isHash i k c := by
  intro hh
  rcases k with _ | _ | _ | _
  case task => exact hk
  case message => exact hk
  all_goals cases effect <;> first | exact hu | exact hh

theorem owner_ne (h : AccountLocks isHash w i effect) (hu : effect.Unlocked) {k : Key}
    (hk : k.ofUsers) : (w.cell k).hold.owner ≠ some i :=
  fun ho => not_holds hu hk (h.held k ho)

theorem view_eq_row (h : AccountLocks isHash w i effect) (hu : effect.Unlocked) {k : Key}
    (hk : k.ofUsers) : (w.cell k).view i = w.row k :=
  World.view_eq_row (h.owner_ne hu hk)

theorem cells (h : AccountLocks isHash w i effect) (hw : ∀ k, w'.cell k = w.cell k) :
    AccountLocks isHash w' i effect where
  held := fun k => by
    rw [hw k]
    exact h.held k
  owns := fun k hk => by
    rw [hw k]
    exact h.owns k hk

/-- Between effects without locks. -/
theorem unlocked (h : AccountLocks isHash w i effect) (hu : effect.Unlocked)
    (hu' : effect'.Unlocked) : AccountLocks isHash w i effect' where
  held := fun k hk => by
    rcases k with _ | _ | _ | _
    case task => trivial
    case message => trivial
    all_goals exact absurd hk (h.owner_ne hu trivial)
  owns := fun k hk => by
    cases effect'
    all_goals first
      | exact hu'.elim
      | cases hk

/-- Writing tasks and messages does not concern it. -/
theorem write_other (h : AccountLocks isHash w i effect) {k : Key} (hk : ¬ k.ofUsers)
    (v : Option (Row k)) : AccountLocks isHash (w.write i k v) i effect where
  held := World.heldBy_write h.held (fun _ _ _ hh => hh) (by
    rcases k with _ | _ | _ | _
    case task => trivial
    case message => trivial
    all_goals exact absurd trivial hk)
  owns := fun k' hk' => by
    have hne : k' ≠ k := by
      rintro rfl
      exact hk (AccountEffect.ofUsers_of_mem_keys hk')
    rw [World.write_cell_of_ne _ _ hne]
    exact h.owns k' hk'

/-- The locking read of a user. -/
theorem lock_user (h : AccountLocks isHash w i effect) (hu : effect.Unlocked) {id : ℕ}
    {p : UserModel → Bool} {row : UserModel} (hrow : w.acquire i (.user id) p = .row row) :
    AccountLocks isHash (w.lock i (.user id)) i (.locked id row) := by
  obtain ⟨hview, -, hopen⟩ := World.acquire_row hrow
  have hcommitted : (w.cell (.user id)).committed = some row :=
    (h.view_eq_row hu (k := .user id) trivial).symm.trans hview
  refine ⟨World.heldBy_lock h.held (fun k c _ hh => ?_) ⟨rfl, by simpa using hcommitted, ?_⟩,
    fun k hk => ?_⟩
  · rcases k with _ | _ | _ | _
    case task => trivial
    case message => trivial
    case user => exact absurd hh (not_holds hu (k := .user _) trivial)
    case email => exact absurd hh (not_holds hu (k := .email _) trivial)
  · rwa [Cell.lock_view]
  · obtain rfl := List.mem_singleton.mp hk
    rw [World.lock_cell_self]
    exact Cell.lock_owner hopen

/-- A write under the lock of a user. -/
theorem write_user {id : ℕ} {row row' : UserModel}
    (h : AccountLocks isHash w i (.locked id row)) (hkeys : effect'.keys ⊆ [.user id])
    (hholds : ∀ k c, k ≠ .user id → AccountEffect.Holds isHash (.locked id row) i k c →
      effect'.Holds isHash i k c)
    (hk : (w.cell (.user id)).committed = some row →
      effect'.Holds isHash i (.user id) ((w.cell (.user id)).write i (some row'))) :
    AccountLocks isHash (w.write i (.user id) (some row')) i effect' := by
  have hcommitted := (h.held (.user id) (h.owns _ (List.mem_singleton_self _))).2.1
  refine ⟨World.heldBy_write h.held hholds (hk hcommitted), fun k hmem => ?_⟩
  obtain rfl := List.mem_singleton.mp (hkeys hmem)
  simp

/-- What a session sees of the user it has locked. -/
theorem locked_view {id : ℕ} {row : UserModel} (h : AccountLocks isHash w i (.locked id row)) :
    (w.cell (.user id)).view i = some row :=
  (h.held (.user id) (h.owns _ (List.mem_singleton_self _))).2.2

/-- **A commit publishes what is known of the locks.** -/
theorem commit (h : AccountLocks isHash w i effect) (hdone : effect.Done) (out : Outcome) :
    AccountStep isHash w (w.commit i out) effect := by
  -- what is not held keeps its committed row; what is held gets the row written under it
  have hother : ∀ k, (¬ effect.Holds isHash i k (w.cell k)) →
      (w.commit i out).row k = w.row k := by
    intro k hk
    rw [World.commit_row]
    exact World.view_eq_row fun ho => hk (h.held k ho)
  have hwritten : ∀ {k : Key} {v : Option (Row k)}, (w.cell k).view i = v →
      (w.commit i out).row k = v := fun hv => (World.commit_row _ _ _ _).trans hv
  cases effect with
  | nothing => exact .nothing (fun id => hother _ fun hh => hh) fun address => hother _ fun hh => hh
  | locked id row =>
    obtain ⟨-, hcommitted, hview⟩ := h.held (.user id) (h.owns _ (List.mem_singleton_self _))
    refine .locked hcommitted (fun id' => ?_) fun address => hother _ fun hh => hh
    by_cases hid : id' = id
    · subst hid
      exact (hwritten hview).trans hcommitted.symm
    · exact hother _ fun hh => hid hh.1
  | rehashed id row row' =>
    obtain ⟨-, hcommitted, hview, hrow⟩ := h.held (.user id) (h.owns _ (List.mem_singleton_self _))
    exact .rehashed hcommitted (hwritten hview) hrow (fun id' hid => hother _ fun hh => hid hh.1)
      fun address => hother _ fun hh => hh
  | replaced id row row' =>
    obtain ⟨-, hcommitted, hview, hrow⟩ := h.held (.user id) (h.owns _ (List.mem_singleton_self _))
    exact .replaced hcommitted (hwritten hview) hrow (fun id' hid => hother _ fun hh => hid hh.1)
      fun address => hother _ fun hh => hh
  | inserted id row =>
    obtain ⟨-, hnone, hview⟩ := h.held (.user id) (h.owns _ (by simp [AccountEffect.keys]))
    obtain ⟨-, hfree, hindexed⟩ := h.held (.email row.emailNormalized)
      (h.owns _ (by simp [AccountEffect.keys]))
    exact .inserted hnone hfree (hwritten hview) (hwritten hindexed)
      (fun id' hid => hother _ fun hh => hid hh.1) fun address ha => hother _ fun hh => ha hh.1
  | _ => exact hdone.elim

section Act

variable {uni : Unicode} {g g' : AccountGhost} {x : Choice Fault Decision}

theorem update_user (h : AccountLocks isHash w i g.effect) {id : ℕ} {p : UserModel → Bool}
    {f : UserModel → UserModel} {r : Except Exn (Option UserModel)}
    (hm : g.Moves isHash (.update (.user id) p f) r g')
    (he : exec Fault.exn (outside isHash) w i (.update (.user id) p f) x = some (r, w')) :
    AccountLocks isHash w' i g'.effect := by
  obtain ⟨rfl, e, rfl⟩ | ⟨rfl, rfl, -⟩ | ⟨loaded, rfl, rfl, hloaded⟩ := exec_update he
  · obtain rfl := hm
    exact h
  · obtain rfl := hm
    exact h
  obtain ⟨-, row, passwordHash, stamp, heffect, hcase⟩ := hm
  rw [heffect] at h
  obtain rfl : loaded = row :=
    Option.some_inj.mp ((World.acquire_row hloaded).1.symm.trans h.locked_view)
  have hother : ∀ {effect : AccountEffect}, effect.keys = [.user id] → ∀ k (c : Cell (Row k)),
      k ≠ .user id → AccountEffect.Holds isHash (.locked id loaded) i k c →
      effect.Holds isHash i k c := by
    intro effect _ k c hne hh
    rcases k with id' | _ | _ | _
    case user => exact absurd (congrArg Key.user hh.1) hne
    case email => exact hh.elim
    all_goals trivial
  obtain ⟨rfl, hhash, rfl⟩ | ⟨rfl, rfl⟩ := hcase
  · rw [UserModel.merge_rehashed]
    refine h.write_user (List.Subset.refl _) (hother rfl) fun hcommitted => ?_
    exact ⟨rfl, hcommitted, by simp, passwordHash, stamp, rfl, hhash⟩
  · rw [UserModel.merge_replaced]
    refine h.write_user (List.Subset.refl _) (hother rfl) fun hcommitted => ?_
    exact ⟨rfl, hcommitted, by simp, passwordHash, stamp, rfl⟩

theorem insert_email (h : AccountLocks isHash w i g.effect) {address : String} {id : ℕ}
    {r : Except Exn Bool} (hm : g.Moves isHash (.insert (.email address) id) r g')
    (he : exec Fault.exn (outside isHash) w i (.insert (.email address) id) x = some (r, w')) :
    AccountLocks isHash w' i g'.effect := by
  obtain ⟨rfl, e, rfl⟩ | ⟨rfl, rfl, -⟩ | ⟨rfl, rfl, -, hnone⟩ := exec_insert he
  · obtain rfl := hm
    exact h
  · obtain rfl := hm
    exact h
  obtain ⟨heffect, rfl⟩ := hm
  rw [heffect] at h
  have hcommitted : (w.cell (.email address)).committed = none :=
    (h.view_eq_row (k := .email address) trivial trivial).symm.trans hnone
  refine ⟨World.heldBy_write h.held (fun k c _ hh => ?_) ⟨rfl, hcommitted, by simp⟩, fun k hk => ?_⟩
  · rcases k with _ | _ | _ | _
    case task => trivial
    case message => trivial
    all_goals exact hh.elim
  · obtain rfl := List.mem_singleton.mp hk
    simp

theorem insert_user (h : AccountLocks isHash w i g.effect) {id : ℕ} {row : UserModel}
    {r : Except Exn Bool} (hm : g.Moves isHash (.insert (.user id) row) r g')
    (he : exec Fault.exn (outside isHash) w i (.insert (.user id) row) x = some (r, w')) :
    AccountLocks isHash w' i g'.effect := by
  obtain ⟨rfl, e, rfl⟩ | ⟨rfl, rfl, -⟩ | ⟨rfl, rfl, -, hnone⟩ := exec_insert he
  · obtain rfl := hm
    exact h
  · obtain rfl := hm
    exact h
  obtain ⟨heffect, rfl⟩ := hm
  rw [heffect] at h
  have hcommitted : (w.cell (.user id)).committed = none :=
    (World.view_eq_row fun ho => h.held (.user id) ho).symm.trans hnone
  refine ⟨World.heldBy_write h.held (fun k c hne hh => ?_) ⟨rfl, hcommitted, by simp⟩,
    fun k hk => ?_⟩
  · rcases k with _ | _ | _ | _
    case user => exact hh.elim
    case email => exact hh
    all_goals trivial
  · obtain rfl | hk := List.mem_cons.mp hk
    · have hne : Key.email row.emailNormalized ≠ .user id := nofun
      rw [World.write_cell_of_ne _ _ hne]
      exact h.owns _ (List.mem_singleton_self _)
    · obtain rfl := List.mem_singleton.mp hk
      simp

theorem act_select (h : AccountLocks isHash w i g.effect) {k : Key} {P : Row k → Bool}
    {r : Except Exn (Option (Row k))} (hg : g.Permits uni isHash (.select k P))
    (hm : g.Moves isHash (.select k P) r g')
    (he : exec Fault.exn (outside isHash) w i (.select k P) x = some (r, w')) :
    AccountLocks isHash w' i g'.effect := by
  obtain ⟨rfl, -⟩ := exec_select he
  rcases r with e | _ | row
  · obtain rfl : g' = g := by cases k <;> exact hm
    exact h
  · obtain rfl : g' = g := by cases k <;> exact hm
    exact h
  · cases k
    case email =>
      -- the entry is read before anything is locked
      obtain rfl := hm
      have hu : g.effect.Unlocked := by
        rw [show g.effect = .nothing from hg]
        trivial
      exact h.unlocked hu trivial
    all_goals
      obtain rfl := hm
      exact h

theorem act_lock (h : AccountLocks isHash w i g.effect) {k : Key} {P : Row k → Bool}
    {r : Except Exn (Option (Row k))} (hg : g.Permits uni isHash (.lock k P))
    (hm : g.Moves isHash (.lock k P) r g')
    (he : exec Fault.exn (outside isHash) w i (.lock k P) x = some (r, w')) :
    AccountLocks isHash w' i g'.effect := by
  obtain ⟨rfl, e, rfl⟩ | ⟨rfl, rfl, -⟩ | ⟨row, rfl, rfl, hrow⟩ := exec_lock he
  · obtain rfl : g' = g := by cases k <;> exact hm
    exact h
  · obtain rfl : g' = g := by cases k <;> exact hm
    exact h
  · cases k
    case user id =>
      obtain rfl := hm
      refine h.lock_user ?_ hrow
      obtain heffect | ⟨address, heffect⟩ := hg
      · rw [heffect]
        trivial
      · rw [heffect]
        trivial
    all_goals exact hm.elim

theorem act_update (h : AccountLocks isHash w i g.effect) {k : Key} {P : Row k → Bool}
    {f : Row k → Row k} {r : Except Exn (Option (Row k))} (hm : g.Moves isHash (.update k P f) r g')
    (he : exec Fault.exn (outside isHash) w i (.update k P f) x = some (r, w')) :
    AccountLocks isHash w' i g'.effect := by
  cases k
  case user => exact h.update_user hm he
  all_goals
    obtain ⟨rfl, e, rfl⟩ | ⟨rfl, rfl, -⟩ | ⟨row, rfl, rfl, -⟩ := exec_update he
    · obtain rfl := hm
      exact h
    · obtain rfl := hm
      exact h
  case email => exact hm.elim
  all_goals
    obtain rfl := hm
    refine h.write_other ?_ _
    exact fun hk => hk

theorem act_insert (h : AccountLocks isHash w i g.effect) {k : Key} {v : Row k}
    {r : Except Exn Bool} (hm : g.Moves isHash (.insert k v) r g')
    (he : exec Fault.exn (outside isHash) w i (.insert k v) x = some (r, w')) :
    AccountLocks isHash w' i g'.effect := by
  cases k
  case user => exact h.insert_user hm he
  case email => exact h.insert_email hm he
  all_goals
    obtain ⟨rfl, e, rfl⟩ | ⟨rfl, rfl, -⟩ | ⟨rfl, rfl, -⟩ := exec_insert he
    · obtain rfl := hm
      exact h
    · obtain rfl := hm
      exact h
    · obtain rfl := hm
      refine h.write_other ?_ _
      exact fun hk => hk

theorem act_nextval (h : AccountLocks isHash w i g.effect) {s : Sequence} {r : Except Exn ℕ}
    (hm : g.Moves isHash (.nextval s) r g')
    (he : exec Fault.exn (outside isHash) w i (.nextval s) x = some (r, w')) :
    AccountLocks isHash w' i g'.effect := by
  obtain ⟨rfl, e, rfl⟩ | ⟨rfl, rfl⟩ := exec_nextval he
  · obtain rfl : g' = g := by cases s <;> exact hm
    exact h
  · have hcells : AccountLocks isHash (w.nextval s) i g.effect := h.cells fun _ => rfl
    cases s with
    | users =>
      obtain ⟨heffect, rfl⟩ := hm
      exact hcells.unlocked (by rw [heffect]; trivial) trivial
    | tasks =>
      obtain rfl := hm
      exact hcells

/-- After a commit nothing is locked; where its reply is lost, anything may be. -/
theorem act_commit {out : Outcome} {r : Except Exn Unit} (hm : g.Moves isHash (.commit out) r g')
    (he : exec Fault.exn (outside isHash) w i (.commit out) x = some (r, w')) :
    AccountLocks isHash w' i g'.effect := by
  obtain ⟨rfl, e, rfl⟩ | rfl := exec_commit he
  · obtain rfl := hm
    refine ⟨fun k _ => ?_, fun k hk => by cases hk⟩
    cases k <;> trivial
  · refine ⟨World.heldBy_commit, fun k hk => ?_⟩
    rcases r with e | u
    · obtain rfl := hm
      cases hk
    · obtain rfl := hm
      cases hk

theorem act_ext (h : AccountLocks isHash w i g.effect) {y : Outside} {r : Except Exn y.Reply}
    (hm : g.Moves isHash (.ext y) r g')
    (he : exec Fault.exn (outside isHash) w i (.ext y) x = some (r, w')) :
    AccountLocks isHash w' i g'.effect := by
  have heffect : g'.effect = g.effect := by
    cases y
    case now =>
      rcases r with e | t
      · obtain rfl := hm
        rfl
      · obtain rfl := hm
        rfl
    all_goals
      obtain rfl := hm
      rfl
  rw [heffect]
  obtain ⟨rfl, -⟩ | ⟨d, env, -, rfl⟩ := exec_ext he
  · exact h
  · exact h.cells fun _ => rfl

/-- **A statement the protocol allows keeps what is known of the locks.** -/
theorem act {c : Command} {r : Except Exn c.Reply} (h : AccountLocks isHash w i g.effect)
    (hg : g.Permits uni isHash c) (hm : g.Moves isHash c r g')
    (he : exec Fault.exn (outside isHash) w i c x = some (r, w')) :
    AccountLocks isHash w' i g'.effect := by
  rcases c with ⟨k, P⟩ | ⟨P, le⟩ | ⟨k, P⟩ | ⟨k, P⟩ | ⟨k, P, f⟩ | ⟨k, v⟩ | ⟨k, P⟩ | s | out | _ | y
  case select => exact h.act_select hg hm he
  case scan =>
    obtain ⟨rfl, -⟩ := exec_scan he
    obtain rfl := hm
    exact h
  case lock => exact h.act_lock hg hm he
  case tryLock =>
    -- the account side never skips a lock
    obtain ⟨rfl, e, rfl⟩ | ⟨rfl, rfl⟩ | ⟨row, rfl, rfl, -⟩ := exec_tryLock he
    · obtain rfl := hm
      exact h
    · obtain rfl := hm
      exact h
    · exact hm.elim
  case update => exact h.act_update hm he
  case insert => exact h.act_insert hm he
  case delete =>
    -- nor does it delete
    obtain ⟨rfl, e, rfl⟩ | ⟨rfl, rfl, -⟩ | ⟨row, rfl, rfl, -⟩ := exec_delete he
    · obtain rfl := hm
      exact h
    · obtain rfl := hm
      exact h
    · exact hm.elim
  case nextval => exact h.act_nextval hm he
  case commit => exact act_commit hm he
  case rollback =>
    obtain ⟨rfl, -⟩ := exec_rollback he
    obtain rfl := hm
    exact ⟨World.heldBy_release, fun k hk => by cases hk⟩
  case ext => exact h.act_ext hm he

end Act

end AccountLocks

theorem Fault.exn_isFault (f : Fault) : f.exn.isFault = true := by
  cases f <;> rfl

/-! ### The ghost state beside the locks -/

/-- The statement is a commit. -/
def Command.commits : Command → Bool
  | .commit _ => true
  | _ => false

/-- What a statement does to the rest of the ghost state. -/
structure AccountGhost.Follows (g : AccountGhost) (c : Command) (r : Except Exn c.Reply)
    (g' : AccountGhost) : Prop where
  request : g'.request = g.request
  decided : g'.decided = false → g.decided = false ∧ c.commits = false
  reported : g'.reported = g.reported ∨ ∃ out,
    (⟨c, r⟩ : (c : Command) × Except Exn c.Reply) = ⟨.commit out, .ok ()⟩ ∧ g'.reported = some out
  clock : g'.clock = g.clock ∨ ∃ t,
    (⟨c, r⟩ : (c : Command) × Except Exn c.Reply) = ⟨.ext .now, .ok t⟩ ∧ g'.clock = some t
  drawn : ∀ id, g'.effect.drawnId = some id → g.effect.drawnId = some id ∨
    (⟨c, r⟩ : (c : Command) × Except Exn c.Reply) = ⟨.nextval .users, .ok id⟩
  locked : ∀ id row, g'.effect.lockRead = some (id, row) → g.effect.lockRead = some (id, row) ∨
    ∃ p, (⟨c, r⟩ : (c : Command) × Except Exn c.Reply) = ⟨.lock (.user id) p, .ok (some row)⟩
  found : ∀ id address, g'.effect = .found id address → g.effect = .found id address ∨
    ∃ p, (⟨c, r⟩ : (c : Command) × Except Exn c.Reply) = ⟨.select (.email address) p, .ok (some id)⟩

namespace AccountGhost

variable {uni : Unicode} {isHash : String → String → Bool} {g g' : AccountGhost} {c : Command}
  {r : Except Exn c.Reply}

theorem Follows.stay (hc : c.commits = false) : g.Follows c r g :=
  ⟨rfl, fun h => ⟨h, hc⟩, .inl rfl, .inl rfl, fun _ h => .inl h, fun _ _ h => .inl h,
    fun _ _ h => .inl h⟩

/-- A statement that moves only the effect. -/
theorem Follows.effect {effect : AccountEffect} (hc : c.commits = false)
    (hdrawn : ∀ id, effect.drawnId = some id → g.effect.drawnId = some id ∨
      (⟨c, r⟩ : (c : Command) × Except Exn c.Reply) = ⟨.nextval .users, .ok id⟩)
    (hlocked : ∀ id row, effect.lockRead = some (id, row) → g.effect.lockRead = some (id, row) ∨
      ∃ p, (⟨c, r⟩ : (c : Command) × Except Exn c.Reply) = ⟨.lock (.user id) p, .ok (some row)⟩)
    (hfound : ∀ id address, effect = .found id address → ∃ p,
      (⟨c, r⟩ : (c : Command) × Except Exn c.Reply) = ⟨.select (.email address) p, .ok (some id)⟩) :
    g.Follows c r { g with effect := effect } :=
  ⟨rfl, fun h => ⟨h, hc⟩, .inl rfl, .inl rfl, hdrawn, hlocked, fun id address h =>
    .inr (hfound id address h)⟩

/-- What a move does, case by case: nothing, or one of these. -/
inductive Move (g : AccountGhost) : (c : Command) → Except Exn c.Reply → AccountGhost → Prop
  | stay {c : Command} {r : Except Exn c.Reply} (hc : c.commits = false) : Move g c r g
  | found {address : String} {p : ℕ → Bool} {id : ℕ} :
      Move g (.select (.email address) p) (.ok (some id)) { g with effect := .found id address }
  | locked {id : ℕ} {p : UserModel → Bool} {row : UserModel} :
      Move g (.lock (.user id) p) (.ok (some row)) { g with effect := .locked id row }
  | rehashed {id : ℕ} {p : UserModel → Bool} {f : UserModel → UserModel}
      {reply row row' : UserModel} (was : g.effect = .locked id row) :
      Move g (.update (.user id) p f) (.ok (some reply)) { g with effect := .rehashed id row row' }
  | replaced {id : ℕ} {p : UserModel → Bool} {f : UserModel → UserModel}
      {reply row row' : UserModel} (was : g.effect = .locked id row) :
      Move g (.update (.user id) p f) (.ok (some reply)) { g with effect := .replaced id row row' }
  | indexed {address : String} {id : ℕ} (was : g.effect = .drawn id) :
      Move g (.insert (.email address) id) (.ok true) { g with effect := .indexed id address }
  | inserted {id : ℕ} {row : UserModel} (was : g.effect = .indexed id row.emailNormalized) :
      Move g (.insert (.user id) row) (.ok true) { g with effect := .inserted id row }
  | drawn {id : ℕ} : Move g (.nextval .users) (.ok id) { g with effect := .drawn id }
  | committed {out : Outcome} {u : Unit} : Move g (.commit out) (.ok u) (g.committed out)
  | failed {out : Outcome} {e : Exn} :
      Move g (.commit out) (.error e) { g with effect := .over, decided := true }
  | rolledBack {r : Except Exn Unit} : Move g .rollback r { g with effect := .nothing }
  | ticked {t : Instant} : Move g (.ext .now) (.ok t) { g with clock := some t }

/-- There are no other moves. -/
theorem Moves.move (hm : g.Moves isHash c r g') : g.Move c r g' := by
  have hstay : g' = g → c.commits = false → g.Move c r g' := fun h hc => h ▸ .stay hc
  rcases c with ⟨k, p⟩ | ⟨p, le⟩ | ⟨k, p⟩ | ⟨k, p⟩ | ⟨k, p, f⟩ | ⟨k, v⟩ | ⟨k, p⟩ | s | out | _ | y
  case select =>
    rcases r with e | _ | row
    · exact hstay (by cases k <;> exact hm) rfl
    · exact hstay (by cases k <;> exact hm) rfl
    -- of the reads only the one in the index has an effect
    · cases k
      case email =>
        obtain rfl := hm
        exact .found
      all_goals exact hstay hm rfl
  case scan => exact hstay hm rfl
  case lock =>
    rcases r with e | _ | row
    · exact hstay (by cases k <;> exact hm) rfl
    · exact hstay (by cases k <;> exact hm) rfl
    -- the only rows locked are of users
    · cases k
      case user =>
        obtain rfl := hm
        exact .locked
      all_goals exact hm.elim
  case tryLock =>
    rcases r with e | _ | row
    · exact hstay hm rfl
    · exact hstay hm rfl
    · exact hm.elim
  case update =>
    rcases r with e | _ | row
    · exact hstay (by cases k <;> exact hm) rfl
    · exact hstay (by cases k <;> exact hm) rfl
    · cases k
      case user =>
        -- the effect so far says whether it is an upgrade of the hash or a replacement
        obtain ⟨-, row, passwordHash, stamp, heffect, ⟨-, -, rfl⟩ | ⟨-, rfl⟩⟩ := hm
        · exact .rehashed heffect
        · exact .replaced heffect
      case email => exact hm.elim
      all_goals exact hstay hm rfl
  case insert =>
    rcases r with e | _ | _
    · exact hstay (by cases k <;> exact hm) rfl
    · exact hstay (by cases k <;> exact hm) rfl
    · cases k
      case user =>
        obtain ⟨heffect, rfl⟩ := hm
        exact .inserted heffect
      case email =>
        obtain ⟨heffect, rfl⟩ := hm
        exact .indexed heffect
      all_goals exact hstay hm rfl
  case delete =>
    rcases r with e | _ | row
    · exact hstay hm rfl
    · exact hstay hm rfl
    · exact hm.elim
  case nextval =>
    rcases r with e | id
    · exact hstay (by cases s <;> exact hm) rfl
    · cases s with
      | users =>
        obtain ⟨-, rfl⟩ := hm
        exact .drawn
      | tasks => exact hstay hm rfl
  case commit =>
    rcases r with e | u
    · obtain rfl := hm
      exact .failed
    · obtain rfl := hm
      exact .committed
  case rollback =>
    obtain rfl := hm
    exact .rolledBack
  case ext =>
    cases y
    case now =>
      rcases r with e | t
      · exact hstay hm rfl
      · obtain rfl := hm
        exact .ticked
    all_goals exact hstay hm rfl

theorem Moves.follows (hm : g.Moves isHash c r g') : g.Follows c r g' := by
  -- only the moves at the end report, decide or read the clock
  cases hm.move with
  | stay hc => exact .stay hc
  | @found address p id =>
    refine .effect rfl nofun nofun fun id' address' h => ?_
    cases h
    exact ⟨p, rfl⟩
  | @locked id p row =>
    refine .effect rfl nofun (fun id' row' h => ?_) nofun
    cases h
    exact .inr ⟨p, rfl⟩
  | rehashed was =>
    refine .effect rfl nofun (fun id' row' h => .inl ?_) nofun
    rw [was]
    exact h
  | replaced was =>
    refine .effect rfl nofun (fun id' row' h => .inl ?_) nofun
    rw [was]
    exact h
  | indexed was =>
    refine .effect rfl (fun id' h => .inl ?_) nofun nofun
    rw [was]
    exact h
  | inserted was =>
    refine .effect rfl (fun id' h => .inl ?_) nofun nofun
    rw [was]
    exact h
  | drawn =>
    refine .effect rfl (fun id' h => .inr ?_) nofun nofun
    cases h
    rfl
  | @committed out =>
    exact ⟨rfl, nofun, .inr ⟨out, rfl, rfl⟩, .inl rfl, nofun, nofun, nofun⟩
  | failed => exact ⟨rfl, nofun, .inl rfl, .inl rfl, nofun, nofun, nofun⟩
  | rolledBack => exact .effect rfl nofun nofun nofun
  | @ticked t =>
    exact ⟨rfl, fun h => ⟨h, rfl⟩, .inl rfl, .inr ⟨t, rfl, rfl⟩, fun _ h => .inl h,
      fun _ _ h => .inl h, fun _ _ h => .inl h⟩

theorem Does.follows (hd : g.Does uni isHash c r g') : g.Follows c r g' := by
  obtain hm | ⟨g₁, op, e, hm, -, -, -, rfl⟩ := hd
  · exact hm.follows
  · have hf := hm.follows
    exact ⟨hf.request, nofun, hf.reported, hf.clock, hf.drawn, hf.locked, hf.found⟩

/-- The effect of a step is that of a move. -/
theorem Does.moves (hd : g.Does uni isHash c r g') :
    ∃ g₁, g.Moves isHash c r g₁ ∧ g'.effect = g₁.effect := by
  obtain hm | ⟨g₁, op, e, hm, -, -, -, rfl⟩ := hd
  · exact ⟨g', hm, rfl⟩
  · exact ⟨g₁, hm, rfl⟩

end AccountGhost

/-! ### What holds of a process -/

/-- What holds of a process with ghost state `g`. -/
structure AccountAsserts (isHash : String → String → Bool) (w : Db) (i : ℕ)
    (p : Option AccountProcess) (g : AccountGhost) : Prop where
  request : ∀ p', p = some p' → g.request = some p'.request
  locks : AccountLocks isHash w i g.effect
  drawn : ∀ p', p = some p' → ∀ id, g.effect.drawnId = some id → Draws .users id p'
  locked : ∀ p', p = some p' → ∀ id row, g.effect.lockRead = some (id, row) →
    ∃ P, (⟨.lock (.user id) P, .ok (some row)⟩ : (c : Command) × Except Exn c.Reply) ∈ p'.calls
  clock : ∀ p', p = some p' → ∀ t, g.clock = some t →
    (⟨.ext .now, .ok t⟩ : (c : Command) × Except Exn c.Reply) ∈ p'.calls
  found : ∀ id address, g.effect = .found id address → w.row (.email address) = some id
  reported : ∀ out, g.reported = some out → (i, out) ∈ w.log
  fresh : p = none → ∀ out, (i, out) ∉ w.log
  decided : ∀ q, g.request = some q → q.single = true → g.decided = false →
    ∀ out, (i, out) ∉ w.log

/-- What is committed leaves nothing undone. -/
theorem AccountGhost.Written.done {uni : Unicode} {isHash : String → String → Bool}
    {g : AccountGhost} {q : AccountRequest} {out : Outcome} (h : g.Written uni isHash q out) :
    g.effect.Done := by
  cases out with
  | registered result =>
    obtain ⟨_, _, _, -, heffect, -⟩ := h
    rw [heffect]
    trivial
  | authenticated result =>
    obtain ⟨_, _, _, -, heffect | ⟨_, heffect⟩, -⟩ := h
    · rw [heffect]
      trivial
    · rw [heffect]
      trivial
  | passwordChanged userId version =>
    obtain ⟨_, _, _, _, _, _, -, heffect, -⟩ := h
    rw [heffect]
    trivial
  | seeded result =>
    have hseeded := h.2
    -- one effect for each way a seeding ends
    unfold AccountGhost.Seeded at hseeded
    split at hseeded
    all_goals first
      | exact hseeded.elim
      | simp [*, AccountEffect.Done]
  | visited user =>
    obtain heffect | ⟨_, _, heffect⟩ := h
    · rw [heffect]
      trivial
    · rw [heffect]
      trivial
  | _ => exact h.elim

/-- What process `i` may do to the rest: its own locks, users that stay, log
entries of its own. -/
structure AccountRel (i : ℕ) (w w' : Db) : Prop where
  moves : ∀ k, (w.cell k).Moves i (w'.cell k)
  keeps : KeepsUsers w w'
  log : w'.log = w.log ∨ ∃ out, w'.log = (i, out) :: w.log

/-- An id a single registration has drawn is free until its commit. -/
def FreshIds (cfg : AccountConfig) : Prop :=
  ∀ i p id, cfg.procs i = some p → p.request.single = true → Draws .users id p →
    (∀ out, (i, out) ∉ cfg.world.log) → cfg.world.row (.user id) = none

theorem KeepsUsers.of_row_eq {w w' : Db} (h : ∀ k, w'.row k = w.row k) : KeepsUsers w w' where
  users := fun id address ha => by rwa [emailOf, h]
  emails := fun address id ha => (h _).trans ha

theorem Indexed.of_row_eq {w w' : Db} (hw : Indexed w) (h : ∀ k, w'.row k = w.row k) :
    Indexed w' := fun address id => by
  rw [emailOf, h, h]
  exact hw address id

namespace AccountAsserts

variable {uni : Unicode} {isHash : String → String → Bool} {w w' : Db} {i : ℕ}
  {p : Option AccountProcess} {g g' : AccountGhost} {x : Choice Fault Decision}

/-- A locked user is the committed one. -/
theorem row_locked (h : AccountAsserts isHash w i p g) {id : ℕ} {row : UserModel}
    (heffect : g.effect = .locked id row) : w.row (.user id) = some row := by
  have hl := h.locks
  rw [heffect] at hl
  exact (hl.held (.user id) (hl.owns _ (List.mem_singleton_self _))).2.1

/-- **The replies are the expected ones.** -/
theorem replies {q : AccountRequest} {calls : List ((c : Command) × Except Exn c.Reply)}
    {rest : Option (Tx AccountResponse)} {c : Command} {r : Except Exn c.Reply}
    (h : AccountAsserts isHash w i (some ⟨q, calls, rest⟩) g) (hw : Indexed w)
    (hg : g.Permits uni isHash c)
    (hfresh : q.single = true → ∀ id, Draws .users id (⟨q, calls, rest⟩ : AccountProcess) →
      (∀ out, (i, out) ∉ w.log) → w.row (.user id) = none)
    (he : exec Fault.exn (outside isHash) w i c x = some (r, w')) : g.Replies isHash c r := by
  rcases r with e | reply
  · obtain ⟨⟨f, rfl⟩, hc⟩ := exec_error he
    exact ⟨f.exn_isFault, hc⟩
  change g.Expects isHash c reply
  rcases c with ⟨k, P⟩ | _ | ⟨k, P⟩ | _ | ⟨k, P, f⟩ | ⟨k, v⟩ | _ | _ | _ | _ | y
  case select =>
    cases k
    case user id =>
      intro row heffect hp
      obtain ⟨-, ⟨e, hr⟩ | hr⟩ := exec_select he
      · cases hr
      · have hl := h.locks
        rw [heffect] at hl
        obtain rfl := Except.ok.inj hr
        rw [hl.locked_view]
        simp [Option.filter, hp]
    all_goals trivial
  case lock =>
    cases k
    case user id =>
      obtain ⟨-, e, hr⟩ | ⟨-, hr, habsent⟩ | ⟨row, -, hr, hrow⟩ := exec_lock he
      · cases hr
      · obtain rfl := Except.ok.inj hr
        refine ⟨nofun, fun address heffect hp _ => ?_⟩
        -- the index still leads to the user
        have hemail := (hw address id).mp (h.found id address heffect)
        obtain ⟨row, hrow, haddress⟩ := Option.map_eq_some_iff.mp hemail
        have hl := h.locks
        rw [heffect] at hl
        have hview := (hl.view_eq_row (k := .user id) trivial trivial).trans hrow
        exact absurd (hp row haddress) (by rw [World.acquire_absent habsent row hview]; decide)
      · obtain rfl := Except.ok.inj hr
        refine ⟨fun row' hrow' => ?_, fun _ _ _ => nofun⟩
        obtain rfl := Option.some_inj.mp hrow'
        exact (World.acquire_row hrow).2.1
    all_goals trivial
  case update =>
    cases k
    case user id =>
      intro row heffect hp hnone
      obtain ⟨-, e, hr⟩ | ⟨-, -, habsent⟩ | ⟨row', -, hr, -⟩ := exec_update he
      · cases hr
      · have hl := h.locks
        rw [heffect] at hl
        rw [World.acquire_absent habsent row hl.locked_view] at hp
        cases hp
      · rw [hnone] at hr
        cases hr
    all_goals trivial
  case insert =>
    cases k
    case user id =>
      rintro ⟨op, q', hq', hsingle, -⟩ hundecided ⟨address, heffect⟩
      obtain rfl : q' = q := Option.some_inj.mp (hq'.symm.trans (h.request _ rfl))
      obtain ⟨-, e, hr⟩ | ⟨-, -, -, row, hview⟩ | ⟨-, hr, -⟩ := exec_insert he
      · cases hr
      · have hdrawn := h.drawn _ rfl id (by rw [heffect]; rfl)
        have hnone := hfresh hsingle id hdrawn (h.decided q' hq' hsingle hundecided)
        have hl := h.locks
        rw [heffect] at hl
        have hcommitted := World.view_eq_row fun ho => hl.held (.user id) ho
        cases (hview.symm.trans hcommitted).trans hnone
      · exact Except.ok.inj hr
    all_goals trivial
  case ext =>
    obtain ⟨-, e, hr⟩ | ⟨d, env, hout, -⟩ := exec_ext he
    · cases hr
    · cases y
      case hash password => exact outside_hash hout
      case verify password passwordHash => exact outside_verify hout
      all_goals trivial
  all_goals trivial

/-- **A statement the protocol allows stays within the guarantee.** -/
theorem guarantee {c : Command} {r : Except Exn c.Reply} (h : AccountAsserts isHash w i p g)
    (hg : g.Permits uni isHash c)
    (he : exec Fault.exn (outside isHash) w i c x = some (r, w')) : AccountRel i w w' := by
  obtain ⟨hrows, hlog⟩ | ⟨out, rfl, rfl⟩ := exec_row he
  · exact ⟨exec_moves he, .of_row_eq hrows, .inl hlog⟩
  · obtain ⟨q, -, hwritten, -⟩ := hg
    exact ⟨exec_moves he, (h.locks.commit hwritten.done out).keepsUsers, .inr ⟨out, rfl⟩⟩

/-- The index stays that of the users. -/
theorem keepsIndex {c : Command} {r : Except Exn c.Reply} (h : AccountAsserts isHash w i p g)
    (hw : Indexed w) (hg : g.Permits uni isHash c)
    (he : exec Fault.exn (outside isHash) w i c x = some (r, w')) : Indexed w' := by
  obtain ⟨hrows, -⟩ | ⟨out, rfl, rfl⟩ := exec_row he
  · exact hw.of_row_eq hrows
  · obtain ⟨q, -, hwritten, -⟩ := hg
    exact (h.locks.commit hwritten.done out).keepsIndex hw

/-- The statements of other sessions leave it alone. -/
theorem stable {j : ℕ} (h : AccountAsserts isHash w j p g) (hrel : AccountRel i w w')
    (hij : j ≠ i) : AccountAsserts isHash w' j p g := by
  have hlog : ∀ out, (j, out) ∈ w'.log → (j, out) ∈ w.log := by
    intro out hmem
    obtain hlog | ⟨out', hlog⟩ := hrel.log
    · rwa [hlog] at hmem
    · rw [hlog] at hmem
      obtain heq | hmem := List.mem_cons.mp hmem
      · exact absurd (congrArg Prod.fst heq) hij
      · exact hmem
  have hold : ∀ entry ∈ w.log, entry ∈ w'.log := by
    intro entry hmem
    obtain hlog | ⟨out', hlog⟩ := hrel.log
    · rwa [hlog]
    · rw [hlog]
      exact List.mem_cons_of_mem _ hmem
  exact
    { request := h.request
      locks := ⟨h.locks.held.frame hrel.moves hij, fun k hk => by
        have ho := h.locks.owns k hk
        rw [(hrel.moves k).foreign ho hij]
        exact ho⟩
      drawn := h.drawn
      locked := h.locked
      clock := h.clock
      found := fun id address he => hrel.keeps.emails address id (h.found id address he)
      reported := fun out he => hold _ (h.reported out he)
      fresh := fun hp out hmem => h.fresh hp out (hlog out hmem)
      decided := fun q hq hs hd out hmem => h.decided q hq hs hd out (hlog out hmem) }

/-- **A process's own statement keeps its assertions.** -/
theorem act {q : AccountRequest} {calls : List ((c : Command) × Except Exn c.Reply)}
    {rest rest' : Option (Tx AccountResponse)} {c : Command} {r : Except Exn c.Reply}
    (h : AccountAsserts isHash w i (some ⟨q, calls, rest⟩) g) (hg : g.Permits uni isHash c)
    (hd : g.Does uni isHash c r g')
    (he : exec Fault.exn (outside isHash) w i c x = some (r, w')) :
    AccountAsserts isHash w' i (some ⟨q, ⟨c, r⟩ :: calls, rest'⟩) g' := by
  have hf := hd.follows
  have hrel := h.guarantee hg he
  obtain ⟨g₁, hm, heffect⟩ := hd.moves
  have hlocks := h.locks.act hg hm he
  rw [← heffect] at hlocks
  refine ⟨fun p' hp => ?_, hlocks, fun p' hp id hid => ?_, fun p' hp id row hrow => ?_,
    fun p' hp t ht => ?_, fun id address hfound => ?_, fun out hout => ?_, nofun,
    fun q' hq' hs hd' out hmem => ?_⟩
  -- what the ghost remembers of the request, the draws, the locks and the clock is in the calls
  · cases hp
    exact hf.request.trans (h.request ⟨q, calls, rest⟩ rfl)
  · cases hp
    obtain hold | hnew := hf.drawn id hid
    · exact List.mem_cons_of_mem _ (h.drawn _ rfl id hold)
    · exact List.mem_cons.mpr (.inl hnew.symm)
  · cases hp
    obtain hold | ⟨P, hnew⟩ := hf.locked id row hrow
    · obtain ⟨P, hmem⟩ := h.locked _ rfl id row hold
      exact ⟨P, List.mem_cons_of_mem _ hmem⟩
    · exact ⟨P, List.mem_cons.mpr (.inl hnew.symm)⟩
  · cases hp
    obtain hold | ⟨t', hnew, ht'⟩ := hf.clock
    · exact List.mem_cons_of_mem _ (h.clock _ rfl t (hold ▸ ht))
    · obtain rfl := Option.some_inj.mp (ht'.symm.trans ht)
      exact List.mem_cons.mpr (.inl hnew.symm)
  -- an email that was found stays, since no commit takes one away
  · obtain hold | ⟨P, hnew⟩ := hf.found id address hfound
    · exact hrel.keeps.emails address id (h.found id address hold)
    · cases hnew
      obtain ⟨rfl, ⟨e, hr⟩ | hr⟩ := exec_select he
      · cases hr
      · have hview : (w'.cell (.email address)).view i = some id :=
          (Option.filter_eq_some_iff.mp (Except.ok.inj hr).symm).1
        have hl := h.locks
        rw [show g.effect = .nothing from hg] at hl
        exact (hl.view_eq_row (k := .email address) trivial trivial).symm.trans hview
  -- what was reported is in the log, and the log only grows
  · obtain hold | ⟨out', hnew, hout'⟩ := hf.reported
    · have hmem := h.reported out (hold ▸ hout)
      obtain hlog | ⟨out', hlog⟩ := hrel.log
      · rwa [hlog]
      · rw [hlog]
        exact List.mem_cons_of_mem _ hmem
    · cases hnew
      obtain rfl := Option.some_inj.mp (hout'.symm.trans hout)
      obtain ⟨-, e, hr⟩ | rfl := exec_commit he
      · cases hr
      · exact List.mem_cons_self
  -- a process whose failure is decided commits nothing
  · obtain ⟨hdecided, hcommit⟩ := hf.decided hd'
    obtain ⟨-, hlog⟩ | ⟨out', rfl, -⟩ := exec_row he
    · exact h.decided q' (hf.request ▸ hq') hs hdecided out (hlog ▸ hmem)
    · cases hcommit

/-- A crash frees the locks. -/
theorem crash {q : AccountRequest} {calls : List ((c : Command) × Except Exn c.Reply)}
    {rest : Option (Tx AccountResponse)}
    (h : AccountAsserts isHash w i (some ⟨q, calls, rest⟩) g) :
    AccountRel i w (w.release i) ∧
    AccountAsserts isHash (w.release i) i (some ⟨q, calls, none⟩) { g with effect := .over } := by
  refine ⟨⟨release_moves, .of_row_eq fun _ => World.release_row _ _ _, .inl rfl⟩, ?_⟩
  exact
    { request := fun p' hp => by cases hp; exact h.request ⟨q, calls, rest⟩ rfl
      locks := ⟨World.heldBy_release, fun k hk => by cases hk⟩
      drawn := fun p' _ id hid => by cases hid
      locked := fun p' _ id row hrow => by cases hrow
      clock := fun p' hp t ht => by cases hp; exact h.clock _ rfl t ht
      found := fun id address hfound => by cases hfound
      reported := h.reported
      fresh := nofun
      decided := h.decided }

/-- Before its arrival a process holds nothing. -/
theorem idle (hfree : ∀ k, (w.cell k).hold.owner ≠ some i) (hlog : ∀ out, (i, out) ∉ w.log) :
    AccountAsserts isHash w i none .idle where
  request := nofun
  locks := ⟨fun k hk => absurd hk (hfree k), fun k hk => by cases hk⟩
  drawn := nofun
  locked := nofun
  clock := nofun
  found := fun id address hfound => by cases hfound
  reported := fun out hout => by cases hout
  fresh := fun _ => hlog
  decided := fun q hq => by cases hq

/-- At its arrival neither. -/
theorem start (h : AccountAsserts isHash w i none .idle) (q : AccountRequest)
    (rest : Option (Tx AccountResponse)) :
    AccountAsserts isHash w i (some ⟨q, [], rest⟩) q.ghost where
  request := fun p' hp => by cases hp; rfl
  locks := h.locks
  drawn := fun p' _ id hid => by cases hid
  locked := fun p' _ id row hrow => by cases hrow
  clock := fun p' _ t ht => by cases ht
  found := fun id address hfound => by cases hfound
  reported := h.reported
  fresh := nofun
  decided := fun _ _ _ _ => h.fresh rfl

end AccountAsserts

/-- **Each process keeps its locks, and what it has committed and been granted.** -/
theorem account_relyGuarantee (uni : Unicode) (isHash : String → String → Bool)
    (lifetime : Duration) (allowed : AccountConfig → AccountRequest → Prop) :
    RelyGuarantee (machine isHash (AccountRequest.code uni lifetime)) allowed
      (accounting uni isHash) .idle (fun q r g => g.request = some q ∧ g.Ends lifetime r)
      (fun cfg _ => FreshIds cfg) Indexed AccountRel (AccountAsserts isHash) where
  start := fun {_ _ q} _ _ _ ha => ⟨q.ghost, q.meets lifetime, ha.start q _⟩
  act := fun hw hp ha hg he hfresh =>
    ⟨ha.replies hw hg (fun hs id hd => hfresh _ _ id hp hs hd) he, ha.keepsIndex hw hg he,
      ha.guarantee hg he, fun _ hd => ha.act hg hd he⟩
  crash := fun hw ha =>
    ⟨hw.of_row_eq fun _ => World.release_row _ _ _, ha.crash.1, _, ha.crash.2⟩
  stable := fun hij _ hrel ha => ha.stable hrel hij

/-! ### Runs -/

/-- What the commit of `out` by process `i` does, `g` being its ghost state. -/
structure AccountCommit (uni : Unicode) (isHash : String → String → Bool)
    (cfg cfg' : AccountConfig) (i : ℕ) (p : AccountProcess) (out : Outcome)
    (g : AccountGhost) : Prop where
  proc : cfg.procs i = some p
  log : cfg'.world.log = (i, out) :: cfg.world.log
  written : g.Written uni isHash p.request out
  step : AccountStep isHash cfg.world cfg'.world g.effect
  drawn : ∀ id, g.effect.drawnId = some id → Draws .users id p
  locked : ∀ id row, g.effect.lockRead = some (id, row) →
    ∃ P, (⟨.lock (.user id) P, .ok (some row)⟩ : (c : Command) × Except Exn c.Reply) ∈ p.calls
  single : p.request.single = true → ∀ out', (i, out') ∉ cfg.world.log

/-- Runs of the account side; at first the email index is that of the users, and
their ids lie below the sequence. -/
structure AccountRun (uni : Unicode) (isHash : String → String → Bool) (lifetime : Duration)
    (allowed : AccountConfig → AccountRequest → Prop) extends
    DbRun isHash (AccountRequest.code uni lifetime) allowed where
  indexed : Indexed (state 0).world
  below : ∀ id row, (state 0).world.row (.user id) = some row → id < (state 0).world.seq .users

/-- A user that was not there at first has been added by a process that drew its
id and has committed. -/
def UsersDrawn (first : ℕ) (cfg : AccountConfig) : Prop :=
  ∀ id row, cfg.world.row (.user id) = some row → id < first ∨
    ∃ i p out, cfg.procs i = some p ∧ Draws .users id p ∧ (i, out) ∈ cfg.world.log

namespace AccountRun

variable {uni : Unicode} {isHash : String → String → Bool} {lifetime : Duration}
  {allowed : AccountConfig → AccountRequest → Prop}

/-- The invariant of the run: processes that fit their ghost states. -/
def Fits (uni : Unicode) (isHash : String → String → Bool) (lifetime : Duration)
    (cfg : AccountConfig) : Prop :=
  Sound.Holds (accounting uni isHash) .idle
    (fun (q : AccountRequest) r g => g.request = some q ∧ g.Ends lifetime r)
    (RelyGuarantee.Invariant Indexed (AccountAsserts isHash)) cfg

theorem freshIds (run : AccountRun uni isHash lifetime allowed) {n : ℕ}
    (h : UsersDrawn ((run.state 0).world.seq .users) (run.state n)) : FreshIds (run.state n) := by
  intro i p id hp _ hd hlog
  rcases hrow : (run.state n).world.row (.user id) with _ | row
  · rfl
  obtain ⟨-, hrange, hunique⟩ := run.draws .users n
  obtain hlt | ⟨j, p', out, hp', hd', hmem⟩ := h id row hrow
  · have hle := (hrange i p id hp hd).1
    omega
  · obtain rfl := hunique i j p p' id hp hp' hd hd'
    exact absurd hmem (hlog out)

/-- What a step does, once the invariant holds before it. -/
theorem commit_of_fits {cfg cfg' : AccountConfig} (h : Fits uni isHash lifetime cfg)
    (hs : (machine isHash (AccountRequest.code uni lifetime)).Step allowed cfg cfg') :
    ((∀ k, cfg'.world.row k = cfg.world.row k) ∧ cfg'.world.log = cfg.world.log) ∨
    ∃ i p out g, AccountCommit uni isHash cfg cfg' i p out g := by
  obtain hsame | ⟨i, p, out, g, hp, hw, hguard, ha⟩ := commit_cases h hs
  · exact .inl hsame
  · obtain ⟨q, hq, hwritten, hfresh⟩ := hguard
    obtain rfl : q = p.request := Option.some_inj.mp (hq.symm.trans (ha.request p rfl))
    refine .inr ⟨i, p, out, g, hp, by rw [hw]; rfl, hwritten, ?_, ha.drawn p rfl, ha.locked p rfl,
      fun hs => ha.decided _ hq hs (hfresh hs)⟩
    rw [hw]
    exact ha.locks.commit hwritten.done out

/-- **Along a run every process fits its ghost state.** -/
theorem invariant (run : AccountRun uni isHash lifetime allowed) (n : ℕ) :
    Fits uni isHash lifetime (run.state n) ∧
      UsersDrawn ((run.state 0).world.seq .users) (run.state n) := by
  have hsound := (account_relyGuarantee uni isHash lifetime allowed).sound
  induction n with
  | zero =>
    refine ⟨⟨fun _ => .idle, ⟨run.indexed, fun i => ?_⟩, fun i => ?_⟩, fun id row hrow =>
      .inl (run.below id row hrow)⟩
    · rw [run.empty i]
      exact .idle (fun k => by simp [run.unlocked k]) fun out => by simp [run.unlogged]
    · rw [run.empty i]
      rfl
  | succ n ih =>
    rcases run.next n with hn | hn
    · rw [hn]
      exact ih
    -- a user is there from the start, or its id was drawn by a process that has committed
    refine ⟨hsound.step ih.1 hn (run.freshIds ih.2), fun id row hrow => ?_⟩
    have hkeep : ∀ {i p}, (run.state n).procs i = some p → Draws .users id p →
        ∃ p', (run.state (n + 1)).procs i = some p' ∧ Draws .users id p' := by
      intro i p hp hd
      obtain ⟨p', hp', -, hcalls⟩ := hn.proc hp
      exact ⟨p', hp', hcalls hd⟩
    -- a commit by process `i` may have inserted the user
    obtain ⟨hrows, hlog⟩ | ⟨i, p, out, g, hc⟩ := commit_of_fits ih.1 hn
    · rw [hrows] at hrow
      obtain hlt | ⟨j, p, out, hp, hd, hmem⟩ := ih.2 id row hrow
      · exact .inl hlt
      · obtain ⟨p', hp', hd'⟩ := hkeep hp hd
        exact .inr ⟨j, p', out, hp', hd', hlog ▸ hmem⟩
    · have hold : ∀ row₀, (run.state n).world.row (.user id) = some row₀ →
          id < (run.state 0).world.seq .users ∨ ∃ i p out, (run.state (n + 1)).procs i = some p ∧
            Draws .users id p ∧ (i, out) ∈ (run.state (n + 1)).world.log := by
        intro row₀ hrow₀
        obtain hlt | ⟨j, p, out', hp, hd, hmem⟩ := ih.2 id row₀ hrow₀
        · exact .inl hlt
        · obtain ⟨p', hp', hd'⟩ := hkeep hp hd
          exact .inr ⟨j, p', out', hp', hd', hc.log ▸ List.mem_cons_of_mem _ hmem⟩
      obtain ⟨row₀, hrow₀⟩ | hid := hc.step.user_of_user hrow
      · exact hold row₀ hrow₀
      · obtain ⟨p', hp', hd'⟩ := hkeep hc.proc (hc.drawn id hid)
        exact .inr ⟨i, p', out, hp', hd', hc.log ▸ List.mem_cons_self⟩

/-- **A step leaves the rows and the log alone, or it is a commit.** -/
theorem step (run : AccountRun uni isHash lifetime allowed) (n : ℕ) :
    ((∀ k, (run.state (n + 1)).world.row k = (run.state n).world.row k) ∧
      (run.state (n + 1)).world.log = (run.state n).world.log) ∨
    ∃ i p out g, AccountCommit uni isHash (run.state n) (run.state (n + 1)) i p out g := by
  rcases run.next n with hn | hn
  · rw [hn]
    exact .inl ⟨fun _ => rfl, rfl⟩
  · exact commit_of_fits (run.invariant n).1 hn

end AccountRun

end Lsstack
