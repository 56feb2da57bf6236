/-
The development seed, run twice.

The seed looks its user up under the casefolded email and registers it under the
normalized one.  Where the two agree, or where both accounts are already there, a
second run finds everything current; otherwise it finds no user and registers an
address that is taken.

* `Hasher` — the password hasher the seed is run with;
* `SeedRun` — the seed in a transaction of its own, nobody else running;
* `alone_seedUser`, `alone_seedMissing` — what the parts of the seed leave;
* **`seed_idempotent_iff`** — when a second run changes nothing.
-/
import Lsstack.PasswordChanges
import Lsstack.DatabaseAlone

namespace Lsstack

open Concurrency

/-! ### The hasher -/

/-- A password hasher: which strings are hashes of a password, and which of them need no
upgrade. -/
structure Hasher where
  isHash : String → String → Bool
  current : String → Bool
  hashes : ∀ password, ∃ h, isHash password h = true ∧ current h = true

/-- The stored hash is one of the password, and needs no upgrade. -/
def Hasher.Fresh (hasher : Hasher) (password passwordHash : String) : Prop :=
  hasher.isHash password passwordHash = true ∧ hasher.current passwordHash = true

/-- What the hasher answers; a hash it makes is current, and it replaces those that are not. -/
def Hasher.Answers (hasher : Hasher) : (x : Outside) → x.Reply → Prop
  | .hash password, h => hasher.Fresh password h
  | .verify password passwordHash, verification =>
    verification.valid = hasher.isHash password passwordHash ∧
      match verification.replacementHash with
      | none => verification.valid = true → hasher.current passwordHash = true
      | some h => hasher.current passwordHash = false ∧ hasher.Fresh password h
  | _, _ => True

instance Hasher.decidableFresh (hasher : Hasher) (password passwordHash : String) :
    Decidable (hasher.Fresh password passwordHash) :=
  inferInstanceAs (Decidable (_ ∧ _))

instance Hasher.decidableAnswers (hasher : Hasher) :
    (x : Outside) → (v : x.Reply) → Decidable (hasher.Answers x v)
  | .hash password, h => inferInstanceAs (Decidable (hasher.Fresh password h))
  | .verify password passwordHash, ⟨valid, none⟩ =>
    inferInstanceAs (Decidable (valid = hasher.isHash password passwordHash ∧
      (valid = true → hasher.current passwordHash = true)))
  | .verify password passwordHash, ⟨valid, some h⟩ =>
    inferInstanceAs (Decidable (valid = hasher.isHash password passwordHash ∧
      hasher.current passwordHash = false ∧ hasher.Fresh password h))
  | .now, _ => inferInstanceAs (Decidable True)
  | .serverNow, _ => inferInstanceAs (Decidable True)
  | .uuid4, _ => inferInstanceAs (Decidable True)
  | .verifyUnknown _, _ => inferInstanceAs (Decidable True)
  | .enqueue _, _ => inferInstanceAs (Decidable True)

/-- The hash a hasher makes verifies, and is not replaced. -/
theorem Hasher.Answers.fresh {hasher : Hasher} {password passwordHash : String}
    {verification : PasswordVerification}
    (h : hasher.Answers (.verify password passwordHash) verification)
    (hfresh : hasher.Fresh password passwordHash) : verification = ⟨true, none⟩ := by
  obtain ⟨valid, replacement⟩ := verification
  obtain ⟨hvalid, hreplacement⟩ := h
  obtain rfl : valid = true := hvalid.trans hfresh.1
  cases replacement with
  | none => rfl
  | some h => cases hreplacement.1.symm.trans hfresh.2

/-- Every call outside the store can be answered. -/
theorem Hasher.exists_answer (hasher : Hasher) (queue : Queue) (x : Outside) :
    ∃ (d : Decision) (v : x.Reply) (queue' : Queue),
      outside hasher.isHash queue x d = some (.ok v, queue') ∧ hasher.Answers x v := by
  cases x with
  | now => exact ⟨.time 0, _, _, rfl, trivial⟩
  | serverNow => exact ⟨.time 0, _, _, rfl, trivial⟩
  | uuid4 => exact ⟨.uuid 0, _, _, rfl, trivial⟩
  | hash password =>
    obtain ⟨h, hh, hcurrent⟩ := hasher.hashes password
    exact ⟨.hashed h, h, queue, by simp [outside, hh], hh, hcurrent⟩
  | verify password passwordHash =>
    by_cases hvalid : hasher.isHash password passwordHash = true
    · by_cases hcurrent : hasher.current passwordHash = true
      · exact ⟨.upgrade none, ⟨true, none⟩, queue, by simp [outside, hvalid], hvalid.symm,
          fun _ => hcurrent⟩
      · obtain ⟨h, hh⟩ := hasher.hashes password
        exact ⟨.upgrade (some h), ⟨true, some h⟩, queue, by simp [outside, hvalid, hh.1],
          hvalid.symm, Bool.eq_false_of_not_eq_true hcurrent, hh⟩
    · exact ⟨.upgrade none, ⟨false, none⟩, queue, by simp [outside, hvalid],
        (Bool.eq_false_of_not_eq_true hvalid).symm, fun h => by cases h⟩
  | verifyUnknown password => exact ⟨.verified, _, _, rfl, trivial⟩
  | enqueue call => exact ⟨.accepted, _, _, rfl, trivial⟩

/-! ### The identity -/

/-- The rows of the database. -/
abbrev Rows := (k : Key) → Option (Row k)

/-- A user whose stored hash is a current one of the password. -/
structure Current (hasher : Hasher) (password : String) (rows : Rows) (id : ℕ) (email : String)
    (row : UserModel) : Prop where
  indexed : rows (.email email) = some id
  stored : rows (.user id) = some row
  email : row.emailNormalized = email
  fresh : hasher.Fresh password row.passwordHash

/-- What the identity part of the seed does to the rows: it keeps the user of the casefolded
email and leaves its password current, or it adds one under the normalized email. -/
inductive SeedsUser (uni : Unicode) (hasher : Hasher) (email password : String) (rows : Rows) :
    ℕ × Bool × Bool → Rows → Prop
  | found {id : ℕ} {row row' : UserModel} {repaired : Bool}
      (indexed : rows (.email (uni.casefold email)) = some id)
      (stored : rows (.user id) = some row)
      (was : row.emailNormalized = uni.casefold email)
      (becomes : row'.emailNormalized = uni.casefold email)
      (fresh : hasher.Fresh password row'.passwordHash)
      (already : hasher.Fresh password row.passwordHash → row' = row ∧ repaired = false) :
      SeedsUser uni hasher email password rows (id, false, repaired)
        (Function.update rows (.user id) (some row'))
  | created {id : ℕ} {emailNormalized : String} {row : UserModel}
      (missing : ∀ id row, rows (.email (uni.casefold email)) = some id →
        rows (.user id) = some row → row.emailNormalized ≠ uni.casefold email)
      (normalized : normalizeEmail uni email = .ok emailNormalized)
      (free : rows (.email emailNormalized) = none) (unused : rows (.user id) = none)
      (becomes : row.emailNormalized = emailNormalized)
      (fresh : hasher.Fresh password row.passwordHash) :
      SeedsUser uni hasher email password rows (id, true, false)
        (Function.update (Function.update rows (.email emailNormalized) (some id)) (.user id)
          (some row))

section Identity

variable {uni : Unicode} {hasher : Hasher} {email password : String} {s : DbSession}

/-- A user is found under its email, or there is none. -/
theorem alone_getByEmailForUpdate {address : String}
    {Q : Except Exn (Option User) → DbSession → Prop}
    (hmissing : (∀ id row, s.rows (.email address) = some id → s.rows (.user id) = some row →
      row.emailNormalized ≠ address) → Q (.ok none) s)
    (hfound : ∀ id row, s.rows (.email address) = some id → s.rows (.user id) = some row →
      row.emailNormalized = address → Q (.ok (some (row.detach id))) s) :
    (UserRepository.getByEmailForUpdate address).Meets (sequential hasher.Answers) s Q := by
  refine Program.meets_bind.mpr (alone_select.mpr ?_)
  rcases hindexed : s.rows (.email address) with _ | id
  · exact hmissing fun id row h => by rw [hindexed] at h; cases h
  refine Program.meets_bind.mpr (alone_selectForUpdate ?_)
  rcases hstored : s.rows (.user id) with _ | row
  · refine hmissing fun id' row h h' => ?_
    obtain rfl := Option.some_inj.mp (hindexed.symm.trans h)
    cases hstored.symm.trans h'
  by_cases hemail : row.emailNormalized = address
  · rw [Option.filter_some, if_pos (beq_iff_eq.mpr hemail)]
    exact hfound id row hindexed hstored hemail
  · rw [Option.filter_some, if_neg fun h => hemail (beq_iff_eq.mp h)]
    refine hmissing fun id' row' h h' => ?_
    obtain rfl := Option.some_inj.mp (hindexed.symm.trans h)
    obtain rfl := Option.some_inj.mp (hstored.symm.trans h')
    exact hemail

/-- A flush leaves the new hash under the same email. -/
theorem alone_userFlush {id : ℕ} {row : UserModel} {passwordHash : String} {sessionVersion : ℕ}
    {updatedAt : Instant} {Q : Except Exn UserModel → DbSession → Prop}
    (hrow : s.rows (.user id) = some row)
    (hok : ∀ row', row'.emailNormalized = row.emailNormalized →
      row'.passwordHash = passwordHash → Q (.ok row') (s.put (.user id) (some row'))) :
    (UserModel.flush id row
      { row with
        passwordHash := passwordHash
        sessionVersion := sessionVersion
        updatedAt := updatedAt }).Meets (sequential hasher.Answers) s Q := by
  -- the row is locked and as it was read, so the UPDATE writes what is assigned
  have hwrite : ∀ stamp, (UserModel.write id row
      { row with
        passwordHash := passwordHash
        sessionVersion := sessionVersion
        updatedAt := updatedAt } stamp).Meets (sequential hasher.Answers) s Q := by
    intro stamp
    have hmerge : UserModel.merge row
        { row with
          passwordHash := passwordHash
          sessionVersion := sessionVersion
          updatedAt := stamp } row =
        { row with
          passwordHash := passwordHash
          sessionVersion := sessionVersion
          updatedAt := stamp } := by
      simp only [UserModel.merge, column_self]
    refine Program.meets_bind.mpr (alone_update hrow rfl ?_)
    rw [hmerge]
    exact hok _ rfl rfl
  rw [UserModel.flush_eq]
  -- nothing is written where nothing changes
  split
  · rename_i h
    have hput := hok row rfl (congrArg (·.passwordHash) h).symm
    rw [Session.put_rows_eq_self hrow] at hput
    rw [h]
    exact hput
  · split
    · refine Program.meets_bind.mpr (alone_call.mpr fun stamp _ => ?_)
      exact hwrite stamp
    · rw [Program.pure_eq, Program.bind_eq, Program.ret_bind]
      exact hwrite _

/-- The row keeps its email and takes the new hash. -/
theorem alone_updateCredentials {id : ℕ} {row : UserModel} {user : User}
    {Q : Except Exn User → DbSession → Prop} (hrow : s.rows (.user id) = some row)
    (hid : user.id = some id)
    (hok : ∀ row', row'.emailNormalized = row.emailNormalized →
      row'.passwordHash = user.passwordHash →
      Q (.ok (row'.detach id)) (s.put (.user id) (some row'))) :
    (UserRepository.updateCredentials user).Meets (sequential hasher.Answers) s Q := by
  unfold UserRepository.updateCredentials
  rw [hid]
  refine Program.meets_bind.mpr ?_
  rw [alone_select, hrow]
  exact Program.meets_bind.mpr (alone_userFlush hrow hok)

/-- The account that registration adds. -/
def Registers (uni : Unicode) (hasher : Hasher) (email password : String) (rows : Rows) (id : ℕ)
    (rows' : Rows) : Prop :=
  ∃ (emailNormalized : String) (row : UserModel),
    normalizeEmail uni email = .ok emailNormalized ∧ rows (.email emailNormalized) = none ∧
    rows (.user id) = none ∧ row.emailNormalized = emailNormalized ∧
    hasher.Fresh password row.passwordHash ∧
    rows' = Function.update (Function.update rows (.email emailNormalized) (some id)) (.user id)
      (some row)

/-- A user is added where neither its email nor its id is taken. -/
theorem alone_add {user : User} {Q : Except Exn User → DbSession → Prop}
    (hok : ∀ (id : ℕ) (row : UserModel) (s' : DbSession),
      s.rows (.email user.emailNormalized) = none → s.rows (.user id) = none →
      row.emailNormalized = user.emailNormalized → row.passwordHash = user.passwordHash →
      s'.rows = Function.update (Function.update s.rows (.email user.emailNormalized) (some id))
        (.user id) (some row) →
      Q (.ok (row.detach id)) s')
    (herror : ∀ e s', Q (.error e) s') :
    (UserRepository.add uni user).Meets (sequential hasher.Answers) s Q := by
  have hnew : (UserRepository.flushNew user).Meets (sequential hasher.Answers) s
      (Program.onError (Program.onOk (fun found s' => Q (.ok (found.2.detach found.1)) s') Q)
        fun _ _ => True) := by
    refine Program.meets_bind.mpr (alone_nextval.mpr ?_)
    refine Program.meets_bind.mpr (alone_insert (fun hfree => ?_) fun _ _ => trivial)
    refine Program.meets_bind.mpr (alone_insert (fun hunused => ?_) fun _ _ => trivial)
    refine hok _ _ _ hfree ?_ rfl rfl rfl
    exact (Session.put_rows_of_ne _ (by simp) _).symm.trans hunused
  refine Program.meets_bind.mpr (Program.meets_handle.mpr (hnew.mono fun r s' h => ?_))
  rcases r with e | found
  · cases e with
    | integrityError orig =>
      show Program.Meets _ (if _ then _ else _ : Tx (ℕ × UserModel)) s' _
      split <;> exact herror _ s'
    | _ => exact herror _ s'
  · exact h

/-- Registration adds an account under the normalized email. -/
theorem alone_register :
    (register uni email password).Meets (sequential hasher.Answers) s
      (IfOk fun auth s' => Registers uni hasher email password s.rows auth.userId s'.rows) := by
  unfold register
  refine Program.meets_bind.mpr (meets_liftExcept.mpr ?_)
  rcases hnormalized : normalizeEmail uni email with e | emailNormalized
  · exact trivial
  refine Program.meets_bind.mpr (meets_liftExcept.mpr ?_)
  rcases validatePassword uni password emailNormalized with e | _
  · exact trivial
  refine Program.meets_bind.mpr (alone_call.mpr fun stamp _ => ?_)
  refine Program.meets_bind.mpr (alone_call.mpr fun passwordHash hfresh => ?_)
  refine Program.meets_bind.mpr (alone_add ?_ fun _ _ => trivial)
  intro id row s' hfree hunused hemail hhash hrows
  refine ⟨emailNormalized, row, hnormalized, hfree, hunused, hemail, ?_, hrows⟩
  rw [hhash]
  exact hfresh

/-- **What the identity part of the seed leaves.** -/
theorem alone_seedUser :
    (seedUser uni email password).Meets (sequential hasher.Answers) s
      (IfOk fun result s' => SeedsUser uni hasher email password s.rows result s'.rows) := by
  refine Program.meets_bind.mpr (alone_getByEmailForUpdate ?_ ?_)
  -- no user under the folded email, so one is registered
  · intro hmissing
    refine Program.meets_bind.mpr (alone_register.mono fun r s' h => ?_)
    rcases r with e | auth
    · trivial
    obtain ⟨emailNormalized, row, hnormalized, hfree, hunused, hemail, hfresh, hrows⟩ := h
    show SeedsUser uni hasher email password s.rows (auth.userId, true, false) s'.rows
    rw [hrows]
    exact .created hmissing hnormalized hfree hunused hemail hfresh
  · intro id row hindexed hstored hemail
    -- the user is kept, and gets a hash that is fresh
    have hfound : ∀ {row' : UserModel} {repaired : Bool},
        row'.emailNormalized = row.emailNormalized → hasher.Fresh password row'.passwordHash →
        (hasher.Fresh password row.passwordHash → row' = row ∧ repaired = false) →
        SeedsUser uni hasher email password s.rows (id, false, repaired)
          (s.put (.user id) (some row')).rows := by
      intro row' repaired hemail' hfresh halready
      exact .found hindexed hstored hemail (hemail'.trans hemail) hfresh halready
    refine Program.meets_bind.mpr (alone_call.mpr fun verification hverify => ?_)
    have hkept := fun hfresh => hverify.fresh hfresh
    obtain ⟨hvalid, hreplaced⟩ := hverify
    show Program.Meets _
      (if verification.valid = false then _ else _ : Tx (ℕ × Bool × Bool)) s _
    by_cases hv : verification.valid = false
    · have hrepair : ¬ hasher.Fresh password row.passwordHash := by
        rintro ⟨hhash, -⟩
        cases hv.symm.trans (hvalid.trans hhash)
      rw [if_pos hv]
      refine Program.meets_bind.mpr (alone_call.mpr fun passwordHash hfresh => ?_)
      refine Program.meets_bind.mpr (alone_call.mpr fun stamp _ => ?_)
      refine Program.meets_bind.mpr (alone_updateCredentials hstored rfl ?_)
      intro row' hemail' hhash
      refine hfound hemail' ?_ fun h => absurd h hrepair
      rw [hhash]
      exact hfresh
    replace hv := Bool.eq_true_of_not_eq_false hv
    have hhash : hasher.isHash password row.passwordHash = true := hvalid.symm.trans hv
    rw [if_neg (by rw [hv]; exact nofun)]
    rcases hr : verification.replacementHash with _ | passwordHash
    · rw [hr] at hreplaced
      have hfresh := @hfound row false rfl ⟨hhash, hreplaced hv⟩ fun _ => ⟨rfl, rfl⟩
      rw [Session.put_rows_eq_self hstored] at hfresh
      exact hfresh
    · rw [hr] at hreplaced
      refine Program.meets_bind.mpr (alone_call.mpr fun stamp _ => ?_)
      refine Program.meets_bind.mpr (alone_updateCredentials hstored rfl ?_)
      intro row' hemail' hhash'
      refine hfound hemail' ?_ fun h => ?_
      · rw [hhash']
        exact hreplaced.2
      · cases hr.symm.trans (congrArg (·.replacementHash) (hkept h))

end Identity

/-! ### The sample tasks -/

/-- Users and emails stay, and so do the tasks that were there; what is new belongs to the
user. -/
structure AddsTasks (userId : ℕ) (rows rows' : Rows) : Prop where
  users : ∀ id, rows' (.user id) = rows (.user id)
  emails : ∀ address, rows' (.email address) = rows (.email address)
  tasks : ∀ id row, rows (.task id) = some row → rows' (.task id) = some row
  added : ∀ id row, rows' (.task id) = some row → rows (.task id) = some row ∨ row.userId = userId

/-- The user has a task of that title. -/
def Owns (rows : Rows) (userId : ℕ) (title : String) : Prop :=
  ∃ id row, rows (.task id) = some row ∧ row.userId = userId ∧ row.title = title

theorem AddsTasks.refl (userId : ℕ) (rows : Rows) : AddsTasks userId rows rows :=
  ⟨fun _ => rfl, fun _ => rfl, fun _ _ h => h, fun _ _ h => .inl h⟩

theorem AddsTasks.trans {userId : ℕ} {rows₁ rows₂ rows₃ : Rows} (h : AddsTasks userId rows₁ rows₂)
    (h' : AddsTasks userId rows₂ rows₃) : AddsTasks userId rows₁ rows₃ where
  users := fun id => (h'.users id).trans (h.users id)
  emails := fun address => (h'.emails address).trans (h.emails address)
  tasks := fun id row hrow => h'.tasks id row (h.tasks id row hrow)
  added := by
    intro id row hrow
    rcases h'.added id row hrow with hrow | howner
    · exact h.added id row hrow
    · exact .inr howner

theorem Owns.keeps {rows rows' : Rows} {userId owner : ℕ} {title : String}
    (h : Owns rows owner title) (hkeeps : AddsTasks userId rows rows') :
    Owns rows' owner title := by
  obtain ⟨id, row, hrow, huser, htitle⟩ := h
  exact ⟨id, row, hkeeps.tasks id row hrow, huser, htitle⟩

/-- Another user has no task it had not before. -/
theorem Owns.before {rows rows' : Rows} {userId owner : ℕ} {title : String}
    (h : Owns rows' owner title) (hkeeps : AddsTasks userId rows rows') (hne : owner ≠ userId) :
    Owns rows owner title := by
  obtain ⟨id, row, hrow, huser, htitle⟩ := h
  rcases hkeeps.added id row hrow with hold | howner
  · exact ⟨id, row, hold, huser, htitle⟩
  · exact absurd (huser.symm.trans howner) hne

/-- A task under an id that is not taken. -/
theorem AddsTasks.insert {userId id : ℕ} {rows rows' : Rows} {row : TaskModel}
    (hunused : rows (.task id) = none) (howner : row.userId = userId)
    (hrows : ∀ k, (∀ id, k ≠ .message id) →
      rows' k = Function.update rows (.task id) (some row) k) :
    AddsTasks userId rows rows' where
  users := fun _ => (hrows _ (by simp)).trans (Function.update_of_ne (by simp) _ _)
  emails := fun _ => (hrows _ (by simp)).trans (Function.update_of_ne (by simp) _ _)
  tasks := by
    intro id' row' hrow
    have hne : Key.task id' ≠ .task id := by
      rintro ⟨⟩
      cases hrow.symm.trans hunused
    rw [hrows _ (by simp), Function.update_of_ne hne]
    exact hrow
  added := by
    intro id' row' hrow
    rw [hrows _ (by simp)] at hrow
    by_cases hid : id' = id
    · subst hid
      rw [Function.update_self] at hrow
      cases hrow
      exact .inr howner
    · have hne : Key.task id' ≠ .task id := by
        rintro ⟨⟩
        exact hid rfl
      rw [Function.update_of_ne hne] at hrow
      exact .inl hrow

section Tasks

variable {hasher : Hasher} {s : DbSession}

/-- A task is created under an id that is not taken. -/
theorem alone_createTask {userId : ℕ} {title normalized : String} {description : Option String}
    (htitle : normalizeTitle title = .ok normalized) :
    (createTask userId title description).Meets (sequential hasher.Answers) s
      (IfOk fun result s' => s.rows (.task result.task.id) = none ∧ ∃ row : TaskModel,
        row.userId = userId ∧ row.title = normalized ∧
        ∀ k, (∀ id, k ≠ .message id) →
          s'.rows k = Function.update s.rows (.task result.task.id) (some row) k) := by
  unfold createTask
  rw [Program.bind_eq, Program.meets_bind, now, alone_call]
  intro stamp _
  rw [Program.onOk_ok, Program.bind_eq, Program.meets_bind, meets_liftExcept, htitle]
  rw [Program.onOk_ok, Program.bind_eq, Program.meets_bind, meets_liftExcept]
  rcases normalizeDescription description with e | description'
  · trivial
  rw [Program.onOk_ok, Program.bind_eq, Program.meets_bind, TaskRepository.add, Program.bind_eq,
    Program.meets_bind, alone_nextval, Program.onOk_ok, Program.bind_eq, Program.meets_bind]
  refine alone_insert (fun hunused => ?_) fun _ _ => trivial
  simp only [Program.onOk_ok, Bool.true_eq_false, if_false, Program.pure_eq, Program.meets_ret,
    TaskModel.detach, taskResult, liftExcept, Program.bind_eq, Program.ret_bind]
  rw [Program.meets_bind, alone_call]
  intro messageId _
  rw [Program.onOk_ok, Program.meets_bind, OutboxRepository.add, Program.bind_eq,
    Program.meets_bind]
  refine alone_insert (fun hnew => ?_) fun _ _ => trivial
  simp only [Program.onOk_ok, Bool.true_eq_false, if_false, Program.pure_eq, Program.meets_ret,
    IfOk]
  exact ⟨hunused, _, rfl, rfl, fun k hk => Session.put_rows_of_ne _ (hk _) _⟩

/-- A flush keeps the owner and leaves the assigned title. -/
theorem alone_taskFlush {id : ℕ} {row assigned : TaskModel}
    {Q : Except Exn TaskModel → DbSession → Prop} (hrow : s.rows (.task id) = some row)
    (hok : ∀ (model row' : TaskModel), row'.userId = row.userId → row'.title = assigned.title →
      Q (.ok model) (s.put (.task id) (some row'))) :
    (TaskModel.flush id row assigned).Meets (sequential hasher.Answers) s Q := by
  have hwrite : ∀ stamp, (TaskModel.write id row assigned stamp).Meets
      (sequential hasher.Answers) s Q := by
    intro stamp
    exact Program.meets_bind.mpr (alone_update hrow rfl (hok _ _ rfl (column_self _ _)))
  rw [TaskModel.flush_eq]
  split
  · rename_i h
    have hput := hok row row rfl (congrArg (·.title) h).symm
    rw [Session.put_rows_eq_self hrow] at hput
    rw [h]
    exact hput
  · split
    · refine Program.meets_bind.mpr (alone_call.mpr fun stamp _ => ?_)
      exact hwrite stamp
    · rw [Program.pure_eq, Program.bind_eq, Program.ret_bind]
      exact hwrite _

/-- A toggled task keeps its owner and its title. -/
theorem alone_toggleTask {userId taskId : ℕ} {row : TaskModel}
    (hrow : s.rows (.task taskId) = some row) :
    (toggleTask userId taskId).Meets (sequential hasher.Answers) s
      (IfOk fun _ s' => ∃ row' : TaskModel, row'.userId = row.userId ∧ row'.title = row.title ∧
        s'.rows = Function.update s.rows (.task taskId) (some row')) := by
  have howned : ∀ {Q : Except Exn (Option TaskModel) → DbSession → Prop},
      (row.userId = userId → Q (.ok (some row)) s) → (row.userId ≠ userId → Q (.ok none) s) →
      (TaskRepository.ownedQuery taskId userId).Meets (sequential hasher.Answers) s Q := by
    intro Q hmine hother
    rw [TaskRepository.ownedQuery, alone_select, hrow]
    by_cases howner : row.userId = userId
    · rw [Option.filter_some, if_pos (beq_iff_eq.mpr howner)]
      exact hmine howner
    · rw [Option.filter_some, if_neg fun h => howner (beq_iff_eq.mp h)]
      exact hother howner
  refine Program.meets_bind.mpr (Program.meets_bind.mpr ?_)
  refine howned (fun howner => ?_) fun _ => trivial
  refine Program.meets_bind.mpr (alone_call.mpr fun stamp _ => ?_)
  refine Program.meets_bind.mpr (Program.meets_bind.mpr ?_)
  subst howner
  refine howned (fun _ => ?_) fun _ => trivial
  refine Program.meets_bind.mpr (alone_taskFlush hrow fun model row' howner htitle => ?_)
  exact ⟨row', howner, htitle, rfl⟩

/-- One sample task, created and toggled if it is a completed one. -/
theorem alone_seedTask {α : Type} {userId : ℕ} {title description : String} {completed : Bool}
    {rest : Tx α} (htitle : normalizeTitle title = .ok title)
    {Q : Except Exn α → DbSession → Prop}
    (hok : ∀ s', AddsTasks userId s.rows s'.rows → Owns s'.rows userId title →
      rest.Meets (sequential hasher.Answers) s' Q)
    (herror : ∀ e s', Q (.error e) s') :
    ((createTask userId title (some description)).bind fun task =>
      if completed then (toggleTask userId task.task.id).bind fun _ => rest else rest).Meets
      (sequential hasher.Answers) s Q := by
  refine Program.meets_bind.mpr ((alone_createTask htitle).mono fun r s₁ h => ?_)
  rcases r with e | task
  · exact herror e s₁
  obtain ⟨hunused, row, howner, hrowTitle, hrows⟩ := h
  have hrow : s₁.rows (.task task.task.id) = some row := by
    rw [hrows _ (by simp), Function.update_self]
  rw [Program.onOk_ok]
  split
  · refine Program.meets_bind.mpr ((alone_toggleTask hrow).mono fun r s₂ h => ?_)
    rcases r with e | toggled
    · exact herror e s₂
    obtain ⟨row', howner', htitle', hrows'⟩ := h
    -- toggled, the task is still the one inserted
    refine hok s₂ (.insert hunused (howner'.trans howner) fun k hk => ?_)
      ⟨task.task.id, row', ?_, howner'.trans howner, htitle'.trans hrowTitle⟩
    · rw [hrows']
      by_cases hk' : k = .task task.task.id
      · subst hk'
        rw [Function.update_self, Function.update_self]
      · rw [Function.update_of_ne hk', Function.update_of_ne hk', hrows k hk,
          Function.update_of_ne hk']
    · rw [hrows', Function.update_self]
  · exact hok s₁ (.insert hunused howner hrows) ⟨task.task.id, row, hrow, howner, hrowTitle⟩

/-- **What the loop over the sample tasks leaves**: every title is there. -/
theorem alone_seedMissing {userId : ℕ} {existingTitles : List String}
    (tasks : List (String × String × Bool)) (htitles : ∀ task ∈ tasks,
      normalizeTitle task.1 = .ok task.1) (created : ℕ) :
    (seedMissing userId existingTitles created tasks).Meets (sequential hasher.Answers) s
      (IfOk fun _ s' => AddsTasks userId s.rows s'.rows ∧
        ∀ task ∈ tasks, task.1 ∈ existingTitles ∨ Owns s'.rows userId task.1) := by
  induction tasks generalizing created s with
  | nil => exact ⟨.refl _ _, nofun⟩
  | cons task rest ih =>
    obtain ⟨title, description, completed⟩ := task
    have htitle := htitles _ List.mem_cons_self
    have hrest := fun task h => htitles task (List.mem_cons_of_mem _ h)
    rw [seedMissing]
    split
    · rename_i hmem
      refine (ih hrest created).mono fun r s' h => ?_
      rcases r with e | n
      · trivial
      exact ⟨h.1, List.forall_mem_cons.mpr ⟨.inl hmem, h.2⟩⟩
    · refine alone_seedTask htitle (fun s₁ hkeeps howns => ?_) fun _ _ => trivial
      refine (ih hrest (created + 1)).mono fun r s₂ h => ?_
      rcases r with e | n
      · trivial
      exact ⟨hkeeps.trans h.1, List.forall_mem_cons.mpr ⟨.inr (howns.keeps h.1), h.2⟩⟩

/-- Where every title is there, the loop does nothing. -/
theorem seedMissing_of_mem {userId : ℕ} {existingTitles : List String} {created : ℕ}
    {tasks : List (String × String × Bool)} (h : ∀ task ∈ tasks, task.1 ∈ existingTitles) :
    seedMissing userId existingTitles created tasks = .ret created := by
  induction tasks with
  | nil => rfl
  | cons task rest ih =>
    rw [List.forall_mem_cons] at h
    rw [seedMissing, if_pos h.1]
    exact ih h.2

end Tasks

/-- The sample titles are normalized. -/
theorem normalizeTitle_seedTasks :
    ∀ task ∈ seedTasks, normalizeTitle task.1 = .ok task.1 := by
  decide

/-! ### The whole seed -/

section Operation

variable {uni : Unicode} {hasher : Hasher} {email password : String} {s : DbSession}

/-- The tasks of a user, by their titles. -/
theorem alone_listOwned {userId : ℕ} {Q : Except Exn (List Task) → DbSession → Prop}
    (hok : ∀ tasks : List Task,
      (∀ title, title ∈ tasks.map Task.title ↔ Owns s.rows userId title) → Q (.ok tasks) s) :
    (TaskRepository.listOwned userId).Meets (sequential hasher.Answers) s Q := by
  refine Program.meets_bind.mpr (alone_scan fun l hl => ?_)
  have hmem := hl.2
  refine hok _ fun title => ?_
  simp only [TaskRepository.tasks, List.mem_map, List.mem_filterMap, List.mem_insertionSort, hmem]
  constructor
  · rintro ⟨task, ⟨⟨k, row⟩, ⟨hrow, howned⟩, htask⟩, rfl⟩
    cases k with
    | task id =>
      cases htask
      exact ⟨id, row, hrow, beq_iff_eq.mp howned, rfl⟩
    | _ => cases htask
  · rintro ⟨id, row, hrow, howner, rfl⟩
    exact ⟨_, ⟨⟨.task id, row⟩, ⟨hrow, beq_iff_eq.mpr howner⟩, rfl⟩, rfl⟩

/-- **What a seed leaves.** -/
structure Seeds (uni : Unicode) (hasher : Hasher) (email password : String) (rows : Rows)
    (id : ℕ) (rows' : Rows) : Prop where
  user : ∃ created repaired between,
    SeedsUser uni hasher email password rows (id, created, repaired) between ∧
    AddsTasks id between rows'
  tasks : ∀ task ∈ seedTasks, Owns rows' id task.1

theorem alone_seedOperation :
    (seedOperation uni email password).Meets (sequential hasher.Answers) s
      (IfOk fun _ s' => ∃ id, Seeds uni hasher email password s.rows id s'.rows) := by
  refine Program.meets_bind.mpr (alone_seedUser.mono fun r s₁ h => ?_)
  rcases r with e | ⟨id, created, repaired⟩
  · trivial
  refine Program.meets_bind.mpr (alone_listOwned fun tasks htasks => ?_)
  refine Program.meets_bind.mpr
    ((alone_seedMissing _ normalizeTitle_seedTasks 0).mono fun r s₂ h' => ?_)
  rcases r with e | n
  · trivial
  obtain ⟨hkeeps, howns⟩ := h'
  refine ⟨id, ⟨created, repaired, s₁.rows, h, hkeeps⟩, fun task htask => ?_⟩
  rcases howns task htask with hmem | howns
  · exact ((htasks _).mp hmem).keeps hkeeps
  · exact howns

/-- **What the identity part finds current, it leaves.** -/
theorem alone_seedUser_current {id : ℕ} {row : UserModel}
    (h : Current hasher password s.rows id (uni.casefold email) row) :
    (seedUser uni email password).Meets (sequential hasher.Answers) s
      fun r s' => r = .ok (id, false, false) ∧ s' = s := by
  refine Program.meets_bind.mpr (alone_getByEmailForUpdate (fun hmissing => ?_) ?_)
  · exact absurd h.email (hmissing id row h.indexed h.stored)
  intro id' row' hindexed hstored _
  obtain rfl := Option.some_inj.mp (h.indexed.symm.trans hindexed)
  obtain rfl := Option.some_inj.mp (h.stored.symm.trans hstored)
  refine Program.meets_bind.mpr (alone_call.mpr fun verification hverify => ?_)
  obtain rfl := Hasher.Answers.fresh hverify h.fresh
  exact ⟨rfl, rfl⟩

/-- **A seed that finds everything current changes nothing.** -/
theorem alone_seedOperation_current {id : ℕ} {row : UserModel}
    (h : Current hasher password s.rows id (uni.casefold email) row)
    (howns : ∀ task ∈ seedTasks, Owns s.rows id task.1) :
    (seedOperation uni email password).Meets (sequential hasher.Answers) s
      fun r s' => r = .ok ⟨uni.casefold email, false, false, 0⟩ ∧ s' = s := by
  refine Program.meets_bind.mpr ((alone_seedUser_current h).mono ?_)
  rintro _ _ ⟨rfl, rfl⟩
  refine Program.meets_bind.mpr (alone_listOwned fun tasks htasks => ?_)
  rw [Program.onOk_ok, seedMissing_of_mem fun task htask => (htasks _).mpr (howns task htask)]
  exact ⟨rfl, rfl⟩

end Operation

/-! ### Runs -/

/-- The seed in a transaction of its own. -/
def seedTransaction (uni : Unicode) (email password : String) : Tx SeedResult :=
  transactionRunner .seeded (seedOperation uni email password)

/-- A run of the seed while nobody else uses the database and nothing fails: `r` is its
result. -/
def SeedRun (uni : Unicode) (hasher : Hasher) (email password : String) (w : Db)
    (r : Except Exn SeedResult) (w' : Db) : Prop :=
  ∃ i, (seedTransaction uni email password).Performs
    (Does Fault.exn (outside hasher.isHash) hasher.Answers i) w r w'

/-- No transaction is open. -/
def AtRest (w : Db) : Prop := ∀ k, (w.cell k).hold.owner = none

/-- Whatever a transaction does, it leaves no lock. -/
theorem meets_transaction_freeing {α : Type} {outcome : α → Outcome} {operation : Tx α} :
    (transactionRunner outcome operation).Meets freeing false fun _ g => g = true := by
  refine meets_transactionRunner.mpr ((meets_freeing _ false).mono fun r g _ => ?_)
  have hrollback : ∀ {e : Exn} {g : Bool}, rolledBack freeing
      (fun (_ : Except Exn α) g => g = true) e g := by
    intro e g
    refine meets_perform_freeing fun r => ?_
    cases r <;> rfl
  cases r with
  | error e => exact hrollback (e := e)
  | ok result =>
    refine meets_perform_freeing fun r => ?_
    cases r with
    | error e => exact hrollback (e := e)
    | ok u => rfl

section Runs

variable {uni : Unicode} {hasher : Hasher} {email password : String} {w w' : Db}

theorem SeedRun.atRest {r : Except Exn SeedResult} (h : SeedRun uni hasher email password w r w')
    (hw : AtRest w) : AtRest w' := by
  obtain ⟨i, hrun⟩ := h
  exact hrun.unlocks meets_transaction_freeing hw

theorem exists_seedRun (hw : AtRest w) : ∃ r w', SeedRun uni hasher email password w r w' := by
  obtain ⟨r, w', hrun⟩ := (Alone.of_unlocked (i := 0) hw).exists_performs (fun _ => id)
    hasher.exists_answer (seedTransaction uni email password)
  exact ⟨r, w', 0, hrun⟩

/-- A run commits what its operation has reached, or nothing. -/
theorem SeedRun.commits {r : Except Exn SeedResult} (h : SeedRun uni hasher email password w r w')
    (hw : AtRest w) {K : Except Exn SeedResult → DbSession → Prop}
    (hmeets : (seedOperation uni email password).Meets (sequential hasher.Answers)
      ⟨w.row, w.row, w.seq, fun _ => False⟩ K) :
    ∃ s, K r s ∧ ∀ result, r = .ok result → w'.row = s.rows := by
  obtain ⟨i, hrun⟩ := h
  have hsettled : (seedTransaction uni email password).Meets (sequential hasher.Answers)
      ⟨w.row, w.row, w.seq, fun _ => False⟩ fun r s' => ∃ s, K r s ∧ ∀ result, r = .ok result →
        s'.committed = s.rows := by
    refine meets_transactionRunner.mpr (hmeets.mono fun r s hr => ?_)
    cases r with
    | error e =>
      refine meets_perform_sequential.mpr fun u _ => ?_
      exact ⟨s, hr, nofun⟩
    | ok result =>
      refine meets_perform_sequential.mpr fun u _ => ?_
      exact ⟨s, hr, fun _ _ => rfl⟩
  obtain ⟨s', halone, s, hs, hcommitted⟩ := (Alone.of_unlocked hw).performs hrun hsettled
  refine ⟨s, hs, fun result hr => ?_⟩
  rw [← hcommitted result hr]
  funext k
  exact halone.committed k

/-- A run that returns has seeded the database. -/
theorem SeedRun.seeds {result : SeedResult}
    (h : SeedRun uni hasher email password w (.ok result) w') (hw : AtRest w) :
    ∃ id, Seeds uni hasher email password w.row id w'.row := by
  obtain ⟨s, ⟨id, hseeds⟩, hrows⟩ := h.commits hw alone_seedOperation
  rw [← hrows result rfl] at hseeds
  exact ⟨id, hseeds⟩

/-- A run over what is current changes nothing. -/
theorem SeedRun.unchanged {r : Except Exn SeedResult} {id : ℕ} {row : UserModel}
    (h : SeedRun uni hasher email password w r w') (hw : AtRest w)
    (hcurrent : Current hasher password w.row id (uni.casefold email) row)
    (howns : ∀ task ∈ seedTasks, Owns w.row id task.1) :
    r = .ok ⟨uni.casefold email, false, false, 0⟩ ∧ w'.row = w.row := by
  obtain ⟨s, ⟨rfl, rfl⟩, hrows⟩ := h.commits hw (alone_seedOperation_current hcurrent howns)
  exact ⟨rfl, hrows _ rfl⟩

end Runs

/-! ### What a seed leaves -/

namespace Seeds

variable {uni : Unicode} {hasher : Hasher} {email password : String} {rows rows' : Rows} {id : ℕ}

/-- The account is the one of the casefolded email, or a new one of the normalized email. -/
theorem stored (h : Seeds uni hasher email password rows id rows') :
    ∃ row, Current hasher password rows' id row.emailNormalized row ∧
      (row.emailNormalized = uni.casefold email ∧
        (∃ old, rows (.user id) = some old ∧ old.emailNormalized = uni.casefold email) ∧
        (∀ address, rows' (.email address) = rows (.email address)) ∨
      normalizeEmail uni email = .ok row.emailNormalized ∧
        rows (.email row.emailNormalized) = none ∧ rows (.user id) = none ∧
        (∀ id old, rows (.email (uni.casefold email)) = some id → rows (.user id) = some old →
          old.emailNormalized ≠ uni.casefold email) ∧
        ∀ address, address ≠ row.emailNormalized →
          rows' (.email address) = rows (.email address)) := by
  obtain ⟨⟨created, repaired, between, huser, hadds⟩, -⟩ := h
  cases huser with
  | @found id row row' repaired indexed stored was becomes fresh already =>
    -- the tasks leave the users and the index alone
    have hemails : ∀ address, rows' (.email address) = rows (.email address) := by
      intro address
      rw [hadds.emails, Function.update_of_ne (by simp)]
    refine ⟨row', ⟨?_, ?_, rfl, fresh⟩, .inl ⟨becomes, ⟨row, stored, was⟩, hemails⟩⟩
    · rw [hemails, becomes]
      exact indexed
    · rw [hadds.users, Function.update_self]
  | @created id emailNormalized row missing normalized free unused becomes fresh =>
    subst becomes
    refine ⟨row, ⟨?_, ?_, rfl, fresh⟩, .inr ⟨normalized, free, unused, missing, ?_⟩⟩
    · rw [hadds.emails, Function.update_of_ne (by simp), Function.update_self]
    · rw [hadds.users, Function.update_self]
    · intro address hne
      rw [hadds.emails, Function.update_of_ne (by simp), Function.update_of_ne]
      rintro ⟨⟩
      exact hne rfl

/-- The other users stay as they are. -/
theorem users (h : Seeds uni hasher email password rows id rows') {id' : ℕ} (hne : id' ≠ id) :
    rows' (.user id') = rows (.user id') := by
  obtain ⟨⟨created, repaired, between, huser, hadds⟩, -⟩ := h
  have hkey : Key.user id' ≠ .user id := by
    rintro ⟨⟩
    exact hne rfl
  rw [hadds.users]
  cases huser with
  | found => rw [Function.update_of_ne hkey]
  | created => rw [Function.update_of_ne hkey, Function.update_of_ne (by simp)]

/-- And so do their tasks. -/
theorem owns (h : Seeds uni hasher email password rows id rows') {owner : ℕ} {title : String}
    (hne : owner ≠ id) : Owns rows' owner title ↔ Owns rows owner title := by
  obtain ⟨⟨created, repaired, between, huser, hadds⟩, -⟩ := h
  have hbetween : ∀ taskId, between (.task taskId) = rows (.task taskId) := by
    intro taskId
    cases huser with
    | found => rw [Function.update_of_ne (by simp)]
    | created => rw [Function.update_of_ne (by simp), Function.update_of_ne (by simp)]
  have hsame : Owns between owner title ↔ Owns rows owner title := by
    simp only [Owns, hbetween]
  exact ⟨fun h => hsame.mp (h.before hadds hne), fun h => (hsame.mpr h).keeps hadds⟩

/-- The email index stays that of the users. -/
theorem keepsIndex {w w' : Db} (h : Seeds uni hasher email password w.row id w'.row)
    (hw : Indexed w) : Indexed w' := by
  obtain ⟨row, ⟨hindexed, hstored, -, hfresh⟩, hfound | hcreated⟩ := h.stored
  · obtain ⟨hemail, ⟨old, hold, holdEmail⟩, hemails⟩ := hfound
    have hsame : ∀ id', emailOf w' id' = emailOf w id' := by
      intro id'
      by_cases hid : id' = id
      · rw [hid, emailOf, emailOf, hold, hstored, Option.map_some, Option.map_some, hemail,
          holdEmail]
      · exact congrArg (Option.map UserModel.emailNormalized) (h.users hid)
    intro address id'
    rw [hemails, hsame]
    exact hw address id'
  · obtain ⟨-, hfree, hunused, -, hemails⟩ := hcreated
    have hstep : AccountStep hasher.isHash w w' (.inserted id row) :=
      .inserted hunused hfree hstored hindexed (fun id' hid => h.users hid) hemails
    exact hstep.keepsIndex hw

end Seeds

/-! ### Idempotence -/

section Idempotence

variable (uni : Unicode) (hasher : Hasher) (email password : String)

/-- The account works: its password verifies, and it owns the sample tasks. -/
def Works (w : Db) (id : ℕ) : Prop :=
  (∃ row, w.row (.user id) = some row ∧ hasher.isHash password row.passwordHash = true) ∧
    ∀ task ∈ seedTasks, Owns w.row id task.1

/-- **What is promised of a database the seed has left**: another run succeeds and changes
nothing, and the one user of the normalized email works. -/
structure Idempotent (w : Db) : Prop where
  again : ∃ r w', SeedRun uni hasher email password w r w'
  current : ∀ r w', SeedRun uni hasher email password w r w' → ∃ result, r = .ok result ∧
    result.userCreated = false ∧ result.passwordRepaired = false ∧ result.tasksCreated = 0 ∧
    w'.row = w.row
  account : ∃ emailNormalized id, normalizeEmail uni email = .ok emailNormalized ∧
    (∀ id', emailOf w id' = some emailNormalized ↔ id' = id) ∧ Works hasher password w id

/-- The email is casefolded to its normal form, or both forms already have their accounts. -/
def Reseedable (w : Db) : Prop :=
  normalizeEmail uni email = .ok (uni.casefold email) ∨
    (∃ id, emailOf w id = some (uni.casefold email)) ∧
    ∃ emailNormalized id, normalizeEmail uni email = .ok emailNormalized ∧
      emailOf w id = some emailNormalized ∧ Works hasher password w id

variable {uni hasher email password} {w w' : Db} {result : SeedResult}

/-- Emails are unique. -/
theorem Indexed.only {address : String} {id : ℕ} (hw : Indexed w)
    (h : emailOf w id = some address) (id' : ℕ) : emailOf w id' = some address ↔ id' = id := by
  constructor
  · intro h'
    exact Option.some_inj.mp (((hw address id').mpr h').symm.trans ((hw address id).mpr h))
  · rintro rfl
    exact h

/-- A user with the casefolded email, current and with every sample task, is all a second run
needs. -/
theorem Seeds.again {id : ℕ} {row : UserModel}
    (h : Seeds uni hasher email password w.row id w'.row) (hrest : AtRest w')
    (hrow : Current hasher password w'.row id row.emailNormalized row)
    (hemail : row.emailNormalized = uni.casefold email) :
    (∃ r w'', SeedRun uni hasher email password w' r w'') ∧
    ∀ r w'', SeedRun uni hasher email password w' r w'' → ∃ result, r = .ok result ∧
      result.userCreated = false ∧ result.passwordRepaired = false ∧ result.tasksCreated = 0 ∧
      w''.row = w'.row := by
  refine ⟨exists_seedRun hrest, fun r w'' hrun => ?_⟩
  rw [hemail] at hrow
  obtain ⟨rfl, hrows⟩ := hrun.unchanged hrest hrow h.tasks
  exact ⟨_, rfl, rfl, rfl, rfl, hrows⟩

/-- **A seed that has added a user under another address than the casefolded one cannot be
repeated**: it looks for a user there is not, and registers an address that is taken. -/
theorem Seeds.not_again {id : ℕ} {row : UserModel} {result : SeedResult} {w'' : Db}
    (h : Seeds uni hasher email password w.row id w'.row) (hrest : AtRest w')
    (hindexed : Indexed w')
    (hrow : Current hasher password w'.row id row.emailNormalized row)
    (hnormalized : normalizeEmail uni email = .ok row.emailNormalized)
    (hne : row.emailNormalized ≠ uni.casefold email)
    (hmissing : ∀ id old, w.row (.email (uni.casefold email)) = some id →
      w.row (.user id) = some old → old.emailNormalized ≠ uni.casefold email)
    (hemails : ∀ address, address ≠ row.emailNormalized →
      w'.row (.email address) = w.row (.email address)) :
    ¬ SeedRun uni hasher email password w' (.ok result) w'' := by
  intro hagain
  obtain ⟨id₂, hseeds₂⟩ := hagain.seeds hrest
  obtain ⟨row₂, -, hcase₂⟩ := hseeds₂.stored
  obtain ⟨-, ⟨old, hold, holdEmail⟩, -⟩ | ⟨hnormalized₂, hfree₂, -⟩ := hcase₂
  · -- it has found a user the first run had missed
    have hid : id₂ ≠ id := by
      rintro rfl
      obtain rfl := Option.some_inj.mp (hrow.stored.symm.trans hold)
      exact hne holdEmail
    have hindex : w'.row (.email (uni.casefold email)) = some id₂ := by
      rw [hindexed, emailOf, hold, Option.map_some, holdEmail]
    rw [hemails _ fun h => hne h.symm] at hindex
    rw [h.users hid] at hold
    exact hmissing id₂ old hindex hold holdEmail
  · rw [Except.ok.inj (hnormalized₂.symm.trans hnormalized), hrow.indexed] at hfree₂
    cases hfree₂

/-- **When the seed is idempotent.** -/
theorem seed_idempotent_iff (hw : AtRest w) (hindexed : Indexed w)
    (hrun : SeedRun uni hasher email password w (.ok result) w') :
    Idempotent uni hasher email password w' ↔ Reseedable uni hasher email password w := by
  have hrest := hrun.atRest hw
  obtain ⟨id, hseeds⟩ := hrun.seeds hw
  have hindexed' := hseeds.keepsIndex hindexed
  obtain ⟨row, hcurrent, hcase⟩ := hseeds.stored
  have hworks : Works hasher password w' id :=
    ⟨⟨row, hcurrent.stored, hcurrent.fresh.1⟩, hseeds.tasks⟩
  have hemailOf : emailOf w' id = some row.emailNormalized := by
    rw [emailOf, hcurrent.stored, Option.map_some]
  have hother : ∀ {id'}, id' ≠ id →
      (Works hasher password w' id' ↔ Works hasher password w id') := by
    intro id' hne
    simp only [Works, hseeds.users hne, hseeds.owns hne]
  constructor
  -- unless the email normalizes to the folded one, some user had the folded one before
  · rintro ⟨⟨r, w'', hagain⟩, hcur, emailNormalized, id', hnormalized, hunique, hworks'⟩
    by_cases heq : emailNormalized = uni.casefold email
    · exact .inl (heq ▸ hnormalized)
    obtain ⟨hemail, ⟨old, hold, holdEmail⟩, -⟩ | ⟨hnormalized', -, -, hmissing, hemails⟩ := hcase
    · have hfold : emailOf w id = some (uni.casefold email) := by
        rw [emailOf, hold, Option.map_some, holdEmail]
      have hid' := (hunique id').mpr rfl
      have hne : id' ≠ id := by
        rintro rfl
        exact heq ((Option.some_inj.mp (hid'.symm.trans hemailOf)).trans hemail)
      refine .inr ⟨⟨id, hfold⟩, emailNormalized, id', hnormalized, ?_, (hother hne).mp hworks'⟩
      rw [← hid']
      exact (congrArg (Option.map UserModel.emailNormalized) (hseeds.users hne)).symm
    · have hrowEmail : row.emailNormalized = emailNormalized :=
        Except.ok.inj (hnormalized'.symm.trans hnormalized)
      obtain ⟨result', rfl, -⟩ := hcur r w'' hagain
      exact absurd hagain (hseeds.not_again hrest hindexed' hcurrent hnormalized'
        (fun h => heq (hrowEmail.symm.trans h)) hmissing hemails)
  -- the second run finds the user of the first
  · intro hreseedable
    have hemail : row.emailNormalized = uni.casefold email := by
      obtain ⟨hemail, -⟩ | ⟨hnormalized, -, -, hmissing, -⟩ := hcase
      · exact hemail
      obtain hsame | ⟨⟨id₀, hfold⟩, -⟩ := hreseedable
      · exact Except.ok.inj (hnormalized.symm.trans hsame)
      · have hindex := (hindexed _ id₀).mpr hfold
        obtain ⟨old, hold, holdEmail⟩ := Option.map_eq_some_iff.mp hfold
        exact absurd holdEmail (hmissing id₀ old hindex hold)
    obtain ⟨hagain, hcur⟩ := hseeds.again hrest hcurrent hemail
    refine ⟨hagain, hcur, ?_⟩
    obtain hsame | ⟨-, emailNormalized, id', hnormalized, hid', hworks'⟩ := hreseedable
    · exact ⟨_, id, hsame, hindexed'.only (hemailOf.trans (congrArg some hemail)), hworks⟩
    by_cases hne : id' = id
    · subst hne
      obtain ⟨-, ⟨old, hold, holdEmail⟩, -⟩ | ⟨-, -, hunused, -⟩ := hcase
      · have hsame : emailNormalized = row.emailNormalized := by
          rw [emailOf, hold, Option.map_some] at hid'
          rw [hemail, ← holdEmail]
          exact (Option.some_inj.mp hid').symm
        refine ⟨emailNormalized, id', hnormalized, hindexed'.only ?_, hworks⟩
        rw [hsame]
        exact hemailOf
      · rw [emailOf, hunused] at hid'
        cases hid'
    · refine ⟨emailNormalized, id', hnormalized, hindexed'.only ?_, (hother hne).mpr hworks'⟩
      exact (congrArg (Option.map UserModel.emailNormalized) (hseeds.users hne)).trans hid'

end Idempotence

/-- A hasher that stores the password itself. -/
def plainHasher : Hasher where
  isHash := fun password passwordHash => password == passwordHash
  current := fun _ => true
  hashes := fun password => ⟨password, beq_self_eq_true _, rfl⟩

/-- What the environment decides while the seed runs on an empty database. -/
def firstRun : List (Choice Fault Decision) :=
  [.ok, .ext (.time 0), .ext (.hashed "correct-horse-battery"), .ok, .ok, .ok, .ok,
    .ext (.time 0), .ok, .ok, .ext (.uuid 1), .ok,
    .ext (.time 0), .ok, .ok, .ext (.uuid 2), .ok,
    .ext (.time 0), .ok, .ok, .ext (.uuid 3), .ok,
    .ok, .ext (.time 1), .ok, .ok, .ok]

/-- The seed returns on an empty database. -/
theorem seedRun_empty (email : String)
    (h : (Program.replay (attempt Fault.exn (outside plainHasher.isHash) plainHasher.Answers 0)
      firstRun (seedTransaction plainText email "correct-horse-battery") emptyDb).map (·.1) =
      some (.ok ⟨email, true, false, 3⟩)) :
    ∃ w, SeedRun plainText plainHasher email "correct-horse-battery" emptyDb
      (.ok ⟨email, true, false, 3⟩) w := by
  obtain ⟨⟨r, w⟩, hreplay, rfl⟩ := Option.map_eq_some_iff.mp h
  exact ⟨w, 0, Program.performs_of_replay does_of_attempt hreplay⟩

theorem indexed_empty : Indexed emptyDb := by
  intro address id
  constructor <;> rintro ⟨⟩

theorem seed_idempotent_plain : ∃ w, SeedRun plainText plainHasher "agent@example.test"
      "correct-horse-battery" emptyDb (.ok ⟨"agent@example.test", true, false, 3⟩) w ∧
    Idempotent plainText plainHasher "agent@example.test" "correct-horse-battery" w := by
  obtain ⟨w, hrun⟩ := seedRun_empty "agent@example.test" rfl
  exact ⟨w, hrun, (seed_idempotent_iff (fun _ => rfl) indexed_empty hrun).mpr (.inl rfl)⟩

/-- With a blank before the email, a second run looks for an address that is not stored. -/
theorem seed_idempotent_violated : ∃ w, SeedRun plainText plainHasher " agent@example.test"
      "correct-horse-battery" emptyDb (.ok ⟨" agent@example.test", true, false, 3⟩) w ∧
    ¬ Idempotent plainText plainHasher " agent@example.test" "correct-horse-battery" w := by
  obtain ⟨w, hrun⟩ := seedRun_empty " agent@example.test" rfl
  refine ⟨w, hrun, ?_⟩
  rintro ⟨⟨r, w', hagain⟩, hcurrent, -⟩
  have hrest := hrun.atRest fun _ => rfl
  obtain ⟨id, hseeds⟩ := hrun.seeds fun _ => rfl
  obtain ⟨row, hrow, ⟨-, ⟨old, hold, -⟩, -⟩ | ⟨hnormalized, -, -, hmissing, hemails⟩⟩ :=
    hseeds.stored
  · cases hold
  have hemail : row.emailNormalized = "agent@example.test" := by
    have hnormal : normalizeEmail plainText " agent@example.test" = .ok "agent@example.test" := by
      decide
    exact Except.ok.inj (hnormalized.symm.trans hnormal)
  obtain ⟨result, rfl, -⟩ := hcurrent r w' hagain
  refine hseeds.not_again hrest (hseeds.keepsIndex indexed_empty) hrow hnormalized ?_ hmissing
    hemails hagain
  rw [hemail]
  decide

end Lsstack
