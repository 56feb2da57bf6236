/-
How the processes of the account side talk to the database.

The ghost state of a process is what its current transaction has locked and
written of the users (`AccountEffect`), its last clock reading, the last result
it has committed, and, for a single transaction, whether and how it has been
decided.  The protocol `accounting` says which statements may follow,
which replies to expect, and which result a transaction may report:

* **`meets_register`**, **`meets_authenticate`**, **`meets_changePassword`** — the
  credential use cases keep to it;
* `settled_accounting` — so do their transactions.
-/
import Lsstack.Accounts

namespace Lsstack

open Concurrency

/-! ### Operations and results -/

/-- A credential use case. -/
inductive AccountOp where
  | register (email password : String)
  | authenticate (email password : String)
  | changePassword (userId : ℕ) (currentPassword newPassword newPasswordConfirmation : String)

/-- The one a request runs, if it runs one. -/
def AccountRequest.op : AccountRequest → Option AccountOp
  | .register email password => some (.register email password)
  | .authenticate email password => some (.authenticate email password)
  | .changePassword userId currentPassword newPassword newPasswordConfirmation =>
    some (.changePassword userId currentPassword newPassword newPasswordConfirmation)
  | .registerAction _ email password _ => some (.register (strip email) password)
  | .loginAction _ email password => some (.authenticate email password)
  | .changePasswordAction cookie currentPassword newPassword newPasswordConfirmation =>
    cookie.map fun claims =>
      .changePassword claims.userId currentPassword newPassword newPasswordConfirmation
  | _ => none

/-- The request is a single transaction of such a use case. -/
def AccountRequest.single : AccountRequest → Bool
  | .register _ _ => true
  | .authenticate _ _ => true
  | .changePassword _ _ _ _ => true
  | _ => false

/-- The user and version a result stands for. -/
def Outcome.credential : Outcome → Option (ℕ × ℕ)
  | .registered result => some (result.userId, result.sessionVersion)
  | .authenticated result => some (result.userId, result.sessionVersion)
  | .passwordChanged userId version => some (userId, version)
  | _ => none

/-- The exceptions by which faults show. -/
def Exn.isFault : Exn → Bool
  | .databaseError _ => true
  | .queueError _ => true
  | .cancelledError => true
  | _ => false

namespace UserModel

/-- The row after `with_rehashed_password`. -/
def rehashed (row : UserModel) (passwordHash : String) (changedAt : Instant) : UserModel :=
  { row with passwordHash := passwordHash, updatedAt := changedAt }

/-- The row after `with_password`. -/
def replaced (row : UserModel) (passwordHash : String) (changedAt : Instant) : UserModel :=
  { row with
    passwordHash := passwordHash
    sessionVersion := row.sessionVersion + 1
    updatedAt := changedAt }

/-- A flush over the row it was loaded from writes the assigned values. -/
theorem merge_rehashed (row : UserModel) (passwordHash : String) (changedAt : Instant) :
    merge row (row.rehashed passwordHash changedAt) row = row.rehashed passwordHash changedAt := by
  simp [merge, rehashed]

theorem merge_replaced (row : UserModel) (passwordHash : String) (changedAt : Instant) :
    merge row (row.replaced passwordHash changedAt) row = row.replaced passwordHash changedAt := by
  simp [merge, replaced]

end UserModel

/-! ### The protocol -/

/-- What a transaction has found, locked and written of the users. -/
inductive AccountEffect where
  | nothing
  | found (id : ℕ) (email : String)
  | locked (id : ℕ) (row : UserModel)
  | rehashed (id : ℕ) (row row' : UserModel)
  | replaced (id : ℕ) (row row' : UserModel)
  | drawn (id : ℕ)
  | indexed (id : ℕ) (email : String)
  | inserted (id : ℕ) (row : UserModel)
  | over

/-- The ghost state of a process. -/
structure AccountGhost where
  request : Option AccountRequest
  clock : Option Instant
  effect : AccountEffect
  reported : Option Outcome
  decided : Bool
  verdict : Option Exn

/-- Before its arrival. -/
def AccountGhost.idle : AccountGhost := ⟨none, none, .nothing, none, false, none⟩

/-- At its arrival. -/
def AccountRequest.ghost (q : AccountRequest) : AccountGhost :=
  ⟨some q, none, .nothing, none, false, none⟩

section Protocol

variable (uni : Unicode) (isHash : String → String → Bool)

/-- The reply decides that the operation fails with `e`. -/
inductive Judges : AccountOp → AccountEffect → (c : Command) → Except Exn c.Reply → Exn → Prop
  | badEmail {email password : String} {effect : AccountEffect} {r : Except Exn Unit} {e : Exn}
      (h : normalizeEmail uni email = .error e) :
      Judges (.register email password) effect .rollback r e
  | badPassword {email password address : String} {effect : AccountEffect} {r : Except Exn Unit}
      {e : Exn} (h : normalizeEmail uni email = .ok address)
      (hpassword : validatePassword uni password address = .error e) :
      Judges (.register email password) effect .rollback r e
  | duplicate {email password address : String} {id : ℕ}
      (h : normalizeEmail uni email = .ok address)
      (hpassword : validatePassword uni password address = .ok ()) :
      Judges (.register email password) (.drawn id) (.insert (.email address) id) (.ok false)
        (.duplicateEmailError "That email is already registered.")
  | noEmail {email password : String} {effect : AccountEffect} {r : Except Exn Unit} {e : Exn}
      (h : normalizeEmail uni email = .error e) :
      Judges (.authenticate email password) effect .rollback r
        (.invalidCredentialsError "Invalid email or password.")
  | unknown {email password address : String} {effect : AccountEffect} {p : ℕ → Bool}
      (h : normalizeEmail uni email = .ok address) :
      Judges (.authenticate email password) effect (.select (.email address) p) (.ok none)
        (.invalidCredentialsError "Invalid email or password.")
  | wrongPassword {email password : String} {id : ℕ} {row : UserModel} {v : PasswordVerification}
      (h : normalizeEmail uni email = .ok row.emailNormalized) (hv : v.valid = false) :
      Judges (.authenticate email password) (.locked id row)
        (.ext (.verify password row.passwordHash)) (.ok v)
        (.invalidCredentialsError "Invalid email or password.")
  | noUser {id : ℕ} {currentPassword newPassword newPasswordConfirmation : String}
      {effect : AccountEffect} {p : UserModel → Bool} (hp : p = fun _ => true) :
      Judges (.changePassword id currentPassword newPassword newPasswordConfirmation) effect
        (.lock (.user id) p) (.ok none)
        (.invalidSessionError "The authenticated user no longer exists.")
  | mismatch {id : ℕ} {currentPassword newPassword newPasswordConfirmation : String}
      {row : UserModel} {v : PasswordVerification} (hv : v.valid = false) :
      Judges (.changePassword id currentPassword newPassword newPasswordConfirmation)
        (.locked id row) (.ext (.verify currentPassword row.passwordHash)) (.ok v)
        (.currentPasswordMismatchError "Current password is incorrect.")
  | unconfirmed {id : ℕ} {currentPassword newPassword newPasswordConfirmation : String}
      {row : UserModel} {v : PasswordVerification} (hv : v.valid = true)
      (h : newPassword ≠ newPasswordConfirmation) :
      Judges (.changePassword id currentPassword newPassword newPasswordConfirmation)
        (.locked id row) (.ext (.verify currentPassword row.passwordHash)) (.ok v)
        (.validationError "new_password_confirmation" "Passwords do not match.")
  | badNewPassword {id : ℕ} {currentPassword newPassword newPasswordConfirmation : String}
      {row : UserModel} {v : PasswordVerification} {e : Exn} (hv : v.valid = true)
      (h : newPassword = newPasswordConfirmation)
      (hpassword : validatePassword uni newPassword row.emailNormalized = .error e) :
      Judges (.changePassword id currentPassword newPassword newPasswordConfirmation)
        (.locked id row) (.ext (.verify currentPassword row.passwordHash)) (.ok v) e

namespace AccountGhost

/-- The request is a single transaction of the use case. -/
def Runs (g : AccountGhost) (op : AccountOp) : Prop :=
  ∃ q, g.request = some q ∧ q.single = true ∧ q.op = some op

/-- What the seed has done to its user. -/
def Seeded (g : AccountGhost) (email : String) (passwordRepaired : Bool) : Prop :=
  match passwordRepaired, g.effect with
  | false, .inserted _ row => row.sessionVersion = 0
  | false, .locked _ _ => True
  | false, .rehashed _ _ _ => True
  | true, .replaced _ row _ => email = row.emailNormalized
  | _, _ => False

/-- The results a transaction may report. -/
def Written (g : AccountGhost) (q : AccountRequest) : Outcome → Prop
  | .registered result => ∃ email password row, q.op = some (.register email password) ∧
      g.effect = .inserted result.userId row ∧
      result = ⟨result.userId, row.emailNormalized, 0⟩ ∧ row.sessionVersion = 0 ∧
      normalizeEmail uni email = .ok row.emailNormalized ∧
      validatePassword uni password row.emailNormalized = .ok () ∧
      isHash password row.passwordHash = true
  | .authenticated result => ∃ email password row, q.op = some (.authenticate email password) ∧
      (g.effect = .locked result.userId row ∨ ∃ row', g.effect = .rehashed result.userId row row') ∧
      result = ⟨result.userId, row.emailNormalized, row.sessionVersion⟩ ∧
      normalizeEmail uni email = .ok row.emailNormalized ∧
      isHash password row.passwordHash = true
  | .passwordChanged userId version =>
    ∃ currentPassword newPassword newPasswordConfirmation row passwordHash stamp,
      q.op = some (.changePassword userId currentPassword newPassword newPasswordConfirmation) ∧
      g.effect = .replaced userId row (row.replaced passwordHash stamp) ∧
      version = row.sessionVersion + 1 ∧ isHash currentPassword row.passwordHash = true ∧
      newPassword = newPasswordConfirmation ∧
      validatePassword uni newPassword row.emailNormalized = .ok () ∧
      isHash newPassword passwordHash = true
  | .seeded result => q.op = none ∧ g.Seeded result.email result.passwordRepaired
  | .visited _ => g.effect = .nothing ∨ ∃ id row, g.effect = .locked id row
  | _ => False

/-- Before a commit: the result is one the request may report, and a single
transaction is not decided yet. -/
def Reports (g : AccountGhost) (out : Outcome) : Prop :=
  ∃ q, g.request = some q ∧ g.Written uni isHash q out ∧ (q.single = true → g.decided = false)

/-- What must hold before a statement. -/
def Permits (g : AccountGhost) : Command → Prop
  | .select (.user id) _ => g.effect = .nothing ∨ ∃ row, g.effect = .locked id row
  | .select (.email _) _ => g.effect = .nothing
  | .lock (.user id) _ => g.effect = .nothing ∨ ∃ address, g.effect = .found id address
  | .commit out => g.Reports uni isHash out
  | _ => True

/-- What a reply that is no exception tells. -/
def Expects (g : AccountGhost) : (c : Command) → c.Reply → Prop
  | .select (.user id) p, reply =>
    ∀ row, g.effect = .locked id row → p row = true → reply = some row
  | .lock (.user id) p, reply => (∀ row, reply = some row → p row = true) ∧
    ∀ address, g.effect = .found id address →
      (∀ row : UserModel, row.emailNormalized = address → p row = true) → reply ≠ none
  | .update (.user id) p _, reply =>
    ∀ row, g.effect = .locked id row → p row = true → reply ≠ none
  | .insert (.user id) _, reply => (∃ op, g.Runs op) → g.decided = false →
    (∃ address, g.effect = .indexed id address) → reply = true
  | .ext (.hash password), passwordHash => isHash password passwordHash = true
  | .ext (.verify password passwordHash), v => v.valid = isHash password passwordHash ∧
    ∀ replacement, v.replacementHash = some replacement →
      isHash password passwordHash = true ∧ isHash password replacement = true
  | _, _ => True

/-- Exceptions are faults, and a rollback raises none. -/
def Replies (g : AccountGhost) (c : Command) : Except Exn c.Reply → Prop
  | .ok reply => g.Expects isHash c reply
  | .error e => e.isFault = true ∧ c ≠ .rollback

/-- After the commit of a result. -/
def committed (g : AccountGhost) (out : Outcome) : AccountGhost :=
  { g with
    effect := .nothing
    reported := some out
    decided := true }

/-- What follows a statement. -/
def Moves (g : AccountGhost) : (c : Command) → Except Exn c.Reply → AccountGhost → Prop
  | .select (.email address) _, .ok (some id), g' => g' = { g with effect := .found id address }
  | .select _ _, _, g' => g' = g
  | .scan _ _, _, g' => g' = g
  | .lock (.user id) _, .ok (some row), g' => g' = { g with effect := .locked id row }
  | .lock _ _, .ok (some _), _ => False
  | .lock _ _, _, g' => g' = g
  | .tryLock _ _, .ok (some _), _ => False
  | .tryLock _ _, _, g' => g' = g
  | .update (.user id) p f, .ok (some _), g' => p = (fun _ => true) ∧
    ∃ row passwordHash stamp, g.effect = .locked id row ∧
      ((f = UserModel.merge row (row.rehashed passwordHash stamp) ∧
          (∃ password, isHash password row.passwordHash = true ∧
            isHash password passwordHash = true) ∧
          g' = { g with effect := .rehashed id row (row.rehashed passwordHash stamp) }) ∨
        (f = UserModel.merge row (row.replaced passwordHash stamp) ∧
          g' = { g with effect := .replaced id row (row.replaced passwordHash stamp) }))
  | .update (.email _) _ _, .ok (some _), _ => False
  | .update _ _ _, _, g' => g' = g
  | .insert (.email address) id, .ok true, g' =>
    g.effect = .drawn id ∧ g' = { g with effect := .indexed id address }
  | .insert (.user id) row, .ok true, g' =>
    g.effect = .indexed id row.emailNormalized ∧ g' = { g with effect := .inserted id row }
  | .insert _ _, _, g' => g' = g
  | .delete _ _, .ok (some _), _ => False
  | .delete _ _, _, g' => g' = g
  | .nextval .users, .ok id, g' => g.effect = .nothing ∧ g' = { g with effect := .drawn id }
  | .nextval _, _, g' => g' = g
  | .commit out, .ok _, g' => g' = g.committed out
  | .commit _, .error _, g' => g' = { g with effect := .over, decided := true }
  | .rollback, _, g' => g' = { g with effect := .nothing }
  | .ext .now, .ok t, g' => g' = { g with clock := some t }
  | .ext _, _, g' => g' = g

/-- The reply may also have decided the operation. -/
def Does (g : AccountGhost) (c : Command) (r : Except Exn c.Reply) (g' : AccountGhost) : Prop :=
  g.Moves isHash c r g' ∨
  ∃ g₁ op e, g.Moves isHash c r g₁ ∧ g.Runs op ∧ g.decided = false ∧
    Judges uni op g.effect c r e ∧ g' = { g₁ with decided := true, verdict := some e }

end AccountGhost

/-- The protocol of the account side. -/
def accounting : Protocol Command Command.Reply Exn AccountGhost where
  guard := AccountGhost.Permits uni isHash
  reply := AccountGhost.Replies isHash
  step := AccountGhost.Does uni isHash

end Protocol

/-! ### Rules -/

section Rules

variable {uni : Unicode} {isHash : String → String → Bool} {g : AccountGhost}

namespace AccountGhost

/-- A transaction may begin: nothing is locked, and a single one is not decided. -/
structure Ready (g : AccountGhost) : Prop where
  effect : g.effect = .nothing
  undecided : ∀ op, g.Runs op → g.decided = false

/-- An operation may raise `e`: a fault, the exception already decided on, or one
that the rollback decides on. -/
def Fails (uni : Unicode) (g : AccountGhost) (e : Exn) : Prop :=
  ∀ op, g.Runs op → e.isFault = true ∨ (g.decided = true ∧ g.verdict = some e) ∨
    (g.decided = false ∧ Judges uni op g.effect .rollback (.ok ()) e)

/-- A transaction may raise `e`: a fault, or the exception decided on. -/
def Settled (g : AccountGhost) (e : Exn) : Prop :=
  ∀ op, g.Runs op → e.isFault = true ∨ g.verdict = some e

/-- The same request and last result. -/
structure Same (g g' : AccountGhost) : Prop where
  request : g'.request = g.request
  reported : g'.reported = g.reported

theorem Same.refl (g : AccountGhost) : g.Same g := ⟨rfl, rfl⟩

theorem Same.trans {g₁ g₂ g₃ : AccountGhost} (h : g₁.Same g₂) (h' : g₂.Same g₃) : g₁.Same g₃ :=
  ⟨h'.request.trans h.request, h'.reported.trans h.reported⟩

theorem Same.runs {g g' : AccountGhost} (h : g.Same g') {op : AccountOp} (hg : g'.Runs op) :
    g.Runs op := by
  obtain ⟨q, hq, hsingle, hop⟩ := hg
  exact ⟨q, h.request ▸ hq, hsingle, hop⟩

theorem fails_of_fault {e : Exn} (h : e.isFault = true) : g.Fails uni e := fun _ _ => .inl h

variable (uni isHash) in
/-- Where a reply decides the operation, the ghost state records it. -/
theorem exists_decided {c : Command} {r : Except Exn c.Reply} {g₁ : AccountGhost} {e : Exn}
    (hm : g.Moves isHash c r g₁) (hsame : g.Same g₁)
    (h : ∀ op, g.Runs op → g.decided = false ∧ Judges uni op g.effect c r e) :
    ∃ g', g.Does uni isHash c r g' ∧ g.Same g' ∧ g'.effect = g₁.effect ∧ g'.Fails uni e := by
  by_cases hruns : ∃ op, g.Runs op
  · obtain ⟨op, hop⟩ := hruns
    obtain ⟨hfresh, hjudges⟩ := h op hop
    exact ⟨{ g₁ with decided := true, verdict := some e },
      .inr ⟨g₁, op, e, hm, hop, hfresh, hjudges, rfl⟩, ⟨hsame.request, hsame.reported⟩, rfl,
      fun _ _ => .inr (.inl ⟨rfl, rfl⟩)⟩
  · refine ⟨g₁, .inl hm, hsame, rfl, fun op hop => ?_⟩
    exact absurd ⟨op, hsame.runs hop⟩ hruns

end AccountGhost

theorem accounting_now {Q : Except Exn Instant → AccountGhost → Prop}
    (hok : ∀ t, Q (.ok t) { g with clock := some t })
    (herror : ∀ e : Exn, e.isFault = true → Q (.error e) g) :
    now.Meets (accounting uni isHash) g Q := by
  refine Program.meets_perform.mpr ⟨trivial, fun r hr => ?_⟩
  rcases r with e | t
  · exact ⟨g, .inl rfl, herror e hr.1⟩
  · exact ⟨_, .inl rfl, hok t⟩

theorem accounting_serverNow {Q : Except Exn Instant → AccountGhost → Prop}
    (hok : ∀ t, Q (.ok t) g) (herror : ∀ e : Exn, e.isFault = true → Q (.error e) g) :
    (call .serverNow).Meets (accounting uni isHash) g Q := by
  refine Program.meets_perform.mpr ⟨trivial, fun r hr => ?_⟩
  rcases r with e | t
  · exact ⟨g, .inl rfl, herror e hr.1⟩
  · exact ⟨g, .inl rfl, hok t⟩

theorem accounting_hash {password : String} {Q : Except Exn String → AccountGhost → Prop}
    (hok : ∀ h, isHash password h = true → Q (.ok h) g)
    (herror : ∀ e : Exn, e.isFault = true → Q (.error e) g) :
    (call (.hash password)).Meets (accounting uni isHash) g Q := by
  refine Program.meets_perform.mpr ⟨trivial, fun r hr => ?_⟩
  rcases r with e | h
  · exact ⟨g, .inl rfl, herror e hr.1⟩
  · exact ⟨g, .inl rfl, hok h hr⟩

theorem accounting_verifyUnknown {password : String} {Q : Except Exn Unit → AccountGhost → Prop}
    (hok : Q (.ok ()) g) (herror : ∀ e : Exn, e.isFault = true → Q (.error e) g) :
    (call (.verifyUnknown password)).Meets (accounting uni isHash) g Q := by
  refine Program.meets_perform.mpr ⟨trivial, fun r hr => ?_⟩
  rcases r with e | u
  · exact ⟨g, .inl rfl, herror e hr.1⟩
  · exact ⟨g, .inl rfl, hok⟩

/-- The three outcomes of a verification. -/
theorem accounting_verify {password passwordHash : String}
    {Q : Except Exn PasswordVerification → AccountGhost → Prop}
    (hvalid : ∀ v : PasswordVerification, v.valid = true → isHash password passwordHash = true →
      (∀ h, v.replacementHash = some h → isHash password h = true) →
      ∃ g', g.Does uni isHash (.ext (.verify password passwordHash)) (.ok v) g' ∧ Q (.ok v) g')
    (hinvalid : ∀ v : PasswordVerification, v.valid = false →
      ∃ g', g.Does uni isHash (.ext (.verify password passwordHash)) (.ok v) g' ∧ Q (.ok v) g')
    (herror : ∀ e : Exn, e.isFault = true → Q (.error e) g) :
    (call (.verify password passwordHash)).Meets (accounting uni isHash) g Q := by
  refine Program.meets_perform.mpr ⟨trivial, fun r hr => ?_⟩
  rcases r with e | v
  · exact ⟨g, .inl rfl, herror e hr.1⟩
  · obtain ⟨hv, hreplacement⟩ := hr
    rcases hvalue : v.valid with _ | _
    · exact hinvalid v hvalue
    · exact hvalid v hvalue (hv.symm.trans hvalue) fun h hh => (hreplacement h hh).2

/-- **A transaction** commits its result, or raises what its operation has
raised, or a fault. -/
theorem settled_accounting {α : Type} {outcome : α → Outcome}
    {Q : Except Exn α → AccountGhost → Prop} {r : Except Exn α}
    (hok : ∀ a, r = .ok a → g.Reports uni isHash (outcome a) ∧ Q (.ok a) (g.committed (outcome a)))
    (herror : ∀ e, r = .error e → g.Fails uni e)
    (hQ : ∀ e g', g.Same g' → g'.effect = .nothing → g'.Settled e → Q (.error e) g') :
    settled (accounting uni isHash) outcome Q r g := by
  -- where the rollback is the last chance to decide the failure, it decides it
  have hback : ∀ e g₁, g.Same g₁ → g₁.Fails uni e →
      rolledBack (accounting uni isHash) Q e g₁ := by
    intro e g₁ hsame hfails
    refine Program.meets_perform.mpr ⟨trivial, fun r hr => ?_⟩
    rcases r with e' | u
    · exact absurd rfl hr.2
    · have hmoves : g₁.Moves isHash .rollback (.ok u) { g₁ with effect := .nothing } := rfl
      by_cases hjudged : ∃ op, g₁.Runs op ∧ g₁.decided = false ∧
          Judges uni op g₁.effect .rollback (.ok ()) e
      · obtain ⟨op, hop, hfresh, hjudges⟩ := hjudged
        refine ⟨{ g₁ with effect := .nothing, decided := true, verdict := some e },
          .inr ⟨_, op, e, hmoves, hop, hfresh, hjudges, rfl⟩, ?_⟩
        exact hQ e _ ⟨hsame.request, hsame.reported⟩ rfl fun _ _ => .inr rfl
      -- the failure was a fault, or was decided before
      · refine ⟨_, .inl hmoves, hQ e _ ⟨hsame.request, hsame.reported⟩ rfl fun op hop => ?_⟩
        obtain hfault | ⟨-, hverdict⟩ | ⟨hfresh, hjudges⟩ := hfails op hop
        · exact .inl hfault
        · exact .inr hverdict
        · exact absurd ⟨op, hop, hfresh, hjudges⟩ hjudged
  rcases r with e | a
  · exact hback e g (.refl g) (herror e rfl)
  · obtain ⟨hreports, hQok⟩ := hok a rfl
    refine Program.meets_perform.mpr ⟨hreports, fun r hr => ?_⟩
    rcases r with e | u
    -- a commit that fails is a fault, and is rolled back in turn
    · exact ⟨_, .inl rfl, hback e _ ⟨rfl, rfl⟩ (AccountGhost.fails_of_fault hr.1)⟩
    · exact ⟨_, .inl rfl, hQok⟩

/-! ### Users -/

/-- A user found by its email is locked. -/
theorem accounting_getByEmailForUpdate {address : String}
    {Q : Except Exn (Option User) → AccountGhost → Prop} (heffect : g.effect = .nothing)
    (hnone : ∀ p, ∃ g', g.Does uni isHash (.select (.email address) p) (.ok none) g' ∧
      Q (.ok none) g')
    (hsome : ∀ id row, row.emailNormalized = address →
      Q (.ok (some (row.detach id))) { g with effect := .locked id row })
    (herror : ∀ e g', e.isFault = true → g.Same g' → Q (.error e) g') :
    (UserRepository.getByEmailForUpdate address).Meets (accounting uni isHash) g Q := by
  unfold UserRepository.getByEmailForUpdate
  refine Program.meets_bind.mpr (Program.meets_perform.mpr ⟨heffect, fun r hr => ?_⟩)
  rcases r with e | _ | id
  · exact ⟨g, .inl rfl, herror e g hr.1 (.refl g)⟩
  · exact hnone _
  · refine ⟨{ g with effect := .found id address }, .inl rfl, ?_⟩
    refine Program.meets_bind.mpr (Program.meets_perform.mpr ⟨.inr ⟨address, rfl⟩, fun r hr => ?_⟩)
    rcases r with e | _ | row
    · exact ⟨_, .inl rfl, herror e _ hr.1 ⟨rfl, rfl⟩⟩
    · exact absurd rfl (hr.2 address rfl fun row hrow => beq_iff_eq.mpr hrow)
    · exact ⟨_, .inl rfl, hsome id row (beq_iff_eq.mp (hr.1 row rfl))⟩

/-- The flush of a locked user writes the row, unless nothing has changed. -/
theorem accounting_flush {id : ℕ} {row assigned : UserModel}
    {Q : Except Exn UserModel → AccountGhost → Prop} (heffect : g.effect = .locked id row)
    (hsame : assigned = row → Q (.ok row) g)
    (hwritten : ∀ stamp row', ∃ g', g.Does uni isHash (.update (.user id) (fun _ => true)
        (UserModel.merge row { assigned with updatedAt := stamp })) (.ok (some row')) g' ∧
      Q (.ok { assigned with updatedAt := stamp }) g')
    (herror : ∀ e : Exn, e.isFault = true → Q (.error e) g) :
    (UserModel.flush id row assigned).Meets (accounting uni isHash) g Q := by
  have hupdate : ∀ stamp, (UserModel.write id row assigned stamp).Meets (accounting uni isHash)
      g Q := by
    intro stamp
    refine Program.meets_bind.mpr (Program.meets_perform.mpr ⟨trivial, fun r hr => ?_⟩)
    rcases r with e | _ | row'
    · exact ⟨g, .inl rfl, herror e hr.1⟩
    · exact absurd rfl (hr row heffect rfl)
    · exact hwritten stamp row'
  rw [UserModel.flush_eq]
  split
  · rename_i h
    rw [h]
    exact hsame h
  · split
    · refine Program.meets_bind.mpr (accounting_serverNow (fun stamp => ?_) herror)
      exact hupdate stamp
    · rw [Program.pure_eq, Program.bind_eq, Program.ret_bind]
      exact hupdate _

/-- A locked user is loaded again before its flush. -/
theorem accounting_updateCredentials {user : User} {id : ℕ} {row : UserModel}
    {Q : Except Exn User → AccountGhost → Prop} (hid : user.id = some id)
    (heffect : g.effect = .locked id row)
    (hflush : (UserModel.flush id row
        { row with
          passwordHash := user.passwordHash
          sessionVersion := user.sessionVersion
          updatedAt := user.updatedAt }).Meets (accounting uni isHash) g
      (Program.onOk (fun model g' => Q (.ok (model.detach id)) g') Q))
    (herror : ∀ e : Exn, e.isFault = true → Q (.error e) g) :
    (UserRepository.updateCredentials user).Meets (accounting uni isHash) g Q := by
  unfold UserRepository.updateCredentials
  rw [hid]
  refine Program.meets_bind.mpr (Program.meets_perform.mpr ⟨.inr ⟨row, heffect⟩, fun r hr => ?_⟩)
  rcases r with e | reply
  · exact ⟨g, .inl rfl, herror e hr.1⟩
  · obtain rfl : reply = some row := hr row heffect rfl
    exact ⟨g, .inl rfl, Program.meets_bind.mpr hflush⟩

/-- **The upgrade of a hash** keeps the version. -/
theorem accounting_rehash {id : ℕ} {row : UserModel} {password passwordHash : String}
    {stamp : Instant} {Q : Except Exn User → AccountGhost → Prop}
    (heffect : g.effect = .locked id row) (hp : isHash password row.passwordHash = true)
    (hh : isHash password passwordHash = true)
    (hsame : Q (.ok (row.detach id)) g)
    (hok : ∀ stamp, Q (.ok ((row.rehashed passwordHash stamp).detach id))
      { g with effect := .rehashed id row (row.rehashed passwordHash stamp) })
    (herror : ∀ e : Exn, e.isFault = true → Q (.error e) g) :
    (UserRepository.updateCredentials
      ((row.detach id).withRehashedPassword passwordHash stamp)).Meets
        (accounting uni isHash) g Q := by
  refine accounting_updateCredentials rfl heffect (accounting_flush heffect ?_ ?_ herror) herror
  · intro _
    exact hsame
  · intro stamp' row'
    refine ⟨_, .inl ⟨rfl, row, passwordHash, stamp', heffect, .inl ⟨rfl, ?_, rfl⟩⟩, hok stamp'⟩
    exact ⟨password, hp, hh⟩

/-- **The replacement of a password** adds one to the version. -/
theorem accounting_replace {id : ℕ} {row : UserModel} {passwordHash : String} {stamp : Instant}
    {Q : Except Exn User → AccountGhost → Prop} (heffect : g.effect = .locked id row)
    (hok : ∀ stamp, Q (.ok ((row.replaced passwordHash stamp).detach id))
      { g with effect := .replaced id row (row.replaced passwordHash stamp) })
    (herror : ∀ e : Exn, e.isFault = true → Q (.error e) g) :
    (UserRepository.updateCredentials
      ((row.detach id).withPassword passwordHash stamp)).Meets (accounting uni isHash) g Q := by
  refine accounting_updateCredentials rfl heffect (accounting_flush heffect ?_ ?_ herror) herror
  · intro h
    have hversion : row.sessionVersion + 1 = row.sessionVersion := congrArg (·.sessionVersion) h
    omega
  · intro stamp' row'
    exact ⟨_, .inl ⟨rfl, row, passwordHash, stamp', heffect, .inr ⟨rfl, rfl⟩⟩, hok stamp'⟩

/-- The driver's message for a second email is told by its text. -/
theorem contains_duplicateEmailMessage :
    contains "email" (uni.casefold UserRepository.duplicateEmailMessage) = true := by
  rw [uni.casefold_ascii _ (List.all_iff_forall_prop.mp (by decide))]
  decide

/-- The INSERT of a new user goes through, unless its email is taken. -/
theorem accounting_flushNew {user : User} {Q : Except Exn (ℕ × UserModel) → AccountGhost → Prop}
    (heffect : g.effect = .nothing) (hfresh : ∀ op, g.Runs op → g.decided = false)
    (hok : ∀ id row, row = ⟨user.emailNormalized, user.passwordHash, user.sessionVersion,
      user.createdAt, user.updatedAt⟩ → Q (.ok (id, row)) { g with effect := .inserted id row })
    (hduplicate : ∀ id, ∃ g', AccountGhost.Does uni isHash { g with effect := .drawn id }
        (.insert (.email user.emailNormalized) id) (.ok false) g' ∧
      Q (.error (.integrityError UserRepository.duplicateEmailMessage)) g')
    (herror : ∀ e g', g.Same g' → e.isFault = true ∨ (∀ op, ¬ g.Runs op) → Q (.error e) g') :
    (UserRepository.flushNew user).Meets (accounting uni isHash) g Q := by
  unfold UserRepository.flushNew
  refine Program.meets_bind.mpr (Program.meets_perform.mpr ⟨trivial, fun r hr => ?_⟩)
  rcases r with e | id
  · exact ⟨g, .inl rfl, herror e g (.refl g) (.inl hr.1)⟩
  refine ⟨{ g with effect := .drawn id }, .inl ⟨heffect, rfl⟩, ?_⟩
  refine Program.meets_bind.mpr (Program.meets_perform.mpr ⟨trivial, fun r hr => ?_⟩)
  rcases r with e | _ | _
  · exact ⟨_, .inl rfl, herror e _ ⟨rfl, rfl⟩ (.inl hr.1)⟩
  · exact hduplicate id
  refine ⟨{ g with effect := .indexed id user.emailNormalized }, .inl ⟨rfl, rfl⟩, ?_⟩
  refine Program.meets_bind.mpr (Program.meets_perform.mpr ⟨trivial, fun r hr => ?_⟩)
  rcases r with e | _ | _
  · exact ⟨_, .inl rfl, herror e _ ⟨rfl, rfl⟩ (.inl hr.1)⟩
  · -- a taken id: no single registration meets it
    have hno : ∀ op, ¬ g.Runs op := fun op hop =>
      absurd (hr ⟨op, hop⟩ (hfresh op hop) ⟨_, rfl⟩) Bool.false_ne_true
    exact ⟨_, .inl rfl, herror _ _ ⟨rfl, rfl⟩ (.inr hno)⟩
  · exact ⟨_, .inl ⟨rfl, rfl⟩, hok id _ rfl⟩

/-- **A new user** is inserted, or its email is taken. -/
theorem accounting_add {user : User} {Q : Except Exn User → AccountGhost → Prop}
    (heffect : g.effect = .nothing) (hfresh : ∀ op, g.Runs op → g.decided = false)
    (hok : ∀ id row, row = ⟨user.emailNormalized, user.passwordHash, user.sessionVersion,
      user.createdAt, user.updatedAt⟩ →
      Q (.ok (row.detach id)) { g with effect := .inserted id row })
    (hduplicate : ∀ id, ∃ g', AccountGhost.Does uni isHash { g with effect := .drawn id }
        (.insert (.email user.emailNormalized) id) (.ok false) g' ∧
      Q (.error (.duplicateEmailError "That email is already registered.")) g')
    (herror : ∀ e g', g.Same g' → g'.Fails uni e → Q (.error e) g') :
    (UserRepository.add uni user).Meets (accounting uni isHash) g Q := by
  unfold UserRepository.add
  refine Program.meets_bind.mpr (Program.meets_handle.mpr
    (accounting_flushNew heffect hfresh hok (fun id => ?_) fun e g' hsame he => ?_))
  -- the index has the email, which decides the failure
  · obtain ⟨g', hdoes, hQ⟩ := hduplicate id
    refine ⟨g', hdoes, ?_⟩
    simp only [Program.onError_error, contains_duplicateEmailMessage, if_true]
    exact hQ
  · have hQ : ∀ e', e'.isFault = true ∨ (∀ op, ¬ g.Runs op) → Q (.error e') g' := by
      intro e' he'
      refine herror e' g' hsame fun op hop => ?_
      obtain hfault | hno := he'
      · exact .inl hfault
      · exact absurd (hsame.runs hop) (hno op)
    rw [Program.onError_error]
    split
    -- an error of the database other than that of the index is no failure of a use case
    · rename_i orig
      have hno : ∀ op, ¬ g.Runs op := he.resolve_left Bool.false_ne_true
      split
      · exact hQ _ (.inr hno)
      · exact hQ _ (.inr hno)
    · exact hQ e he

/-! ### The credential use cases -/

/-- **Registration** inserts a user with version 0 and a hash of the password. -/
theorem meets_register {email password : String} {Q : Except Exn AuthResult → AccountGhost → Prop}
    (heffect : g.effect = .nothing)
    (hop : ∀ op, g.Runs op → op = .register email password ∧ g.decided = false)
    (hok : ∀ id (row : UserModel) g', g.Same g' → g'.decided = g.decided →
      g'.effect = .inserted id row → row.sessionVersion = 0 →
      normalizeEmail uni email = .ok row.emailNormalized →
      validatePassword uni password row.emailNormalized = .ok () →
      isHash password row.passwordHash = true → Q (.ok ⟨id, row.emailNormalized, 0⟩) g')
    (herror : ∀ e g', g.Same g' → g'.Fails uni e → Q (.error e) g') :
    (register uni email password).Meets (accounting uni isHash) g Q := by
  have hfault : ∀ (e : Exn) g', e.isFault = true → g.Same g' → Q (.error e) g' :=
    fun e g' he hsame => herror e g' hsame (AccountGhost.fails_of_fault he)
  unfold register
  rw [Program.bind_eq, Program.meets_bind, meets_liftExcept]
  rcases hemail : normalizeEmail uni email with e | address
  -- the email is refused, whatever is in the database
  · refine herror e g (.refl g) fun op hruns => .inr (.inr ⟨(hop op hruns).2, ?_⟩)
    rw [(hop op hruns).1]
    exact .badEmail hemail
  rw [Program.onOk_ok, Program.bind_eq, Program.meets_bind, meets_liftExcept]
  rcases hpassword : validatePassword uni password address with e | u
  -- so is the password
  · refine herror e g (.refl g) fun op hruns => .inr (.inr ⟨(hop op hruns).2, ?_⟩)
    rw [(hop op hruns).1]
    exact .badPassword hemail hpassword
  refine Program.meets_bind.mpr (accounting_now (fun t => ?_) fun e he => hfault e g he (.refl g))
  refine Program.meets_bind.mpr (accounting_hash (fun h hh => ?_) fun e he =>
    hfault e _ he ⟨rfl, rfl⟩)
  refine Program.meets_bind.mpr (accounting_add heffect (fun op hruns => (hop op hruns).2)
    (fun id row hrow => ?_) (fun id => ?_) fun e g' hsame hfails => ?_)
  · subst hrow
    exact hok id ⟨address, h, 0, t, t⟩ _ ⟨rfl, rfl⟩ rfl rfl rfl hemail hpassword hh
  -- the email is taken: the failing insert decides
  · obtain ⟨g', hdoes, hsame, -, hfails⟩ := AccountGhost.exists_decided uni isHash
      (g := { g with clock := some t, effect := .drawn id })
      (c := .insert (.email address) id) (r := .ok false) (e := .duplicateEmailError _) rfl
      (.refl _) fun op hruns => ⟨(hop op hruns).2, by
        rw [(hop op hruns).1]
        exact .duplicate hemail hpassword⟩
    exact ⟨g', hdoes, herror _ g' ⟨hsame.request, hsame.reported⟩ hfails⟩
  · exact herror e g' ⟨hsame.request, hsame.reported⟩ hfails

/-- **Login** is judged on the locked row, whose hash it may upgrade. -/
theorem meets_authenticate {email password : String}
    {Q : Except Exn AuthResult → AccountGhost → Prop} (heffect : g.effect = .nothing)
    (hop : ∀ op, g.Runs op → op = .authenticate email password ∧ g.decided = false)
    (hok : ∀ id (row : UserModel) g', g.Same g' → g'.decided = g.decided →
      (g'.effect = .locked id row ∨ ∃ row', g'.effect = .rehashed id row row') →
      normalizeEmail uni email = .ok row.emailNormalized →
      isHash password row.passwordHash = true →
      Q (.ok ⟨id, row.emailNormalized, row.sessionVersion⟩) g')
    (herror : ∀ e g', g.Same g' → g'.Fails uni e → Q (.error e) g') :
    (authenticate uni email password).Meets (accounting uni isHash) g Q := by
  have hfault : ∀ (e : Exn) g', e.isFault = true → g.Same g' → Q (.error e) g' :=
    fun e g' he hsame => herror e g' hsame (AccountGhost.fails_of_fault he)
  unfold authenticate
  rcases hemail : normalizeEmail uni email with e | address
  -- an email that cannot be normalized costs a verification too
  · obtain ⟨field, message, rfl⟩ := normalizeEmail_error hemail
    refine Program.meets_bind.mpr (accounting_verifyUnknown ?_ fun e he => hfault e g he (.refl g))
    refine herror _ g (.refl g) fun op hruns => .inr (.inr ⟨(hop op hruns).2, ?_⟩)
    rw [(hop op hruns).1]
    exact .noEmail hemail
  refine Program.meets_bind.mpr (accounting_getByEmailForUpdate heffect (fun p => ?_)
    (fun id row hrow => ?_) fun e g' he hsame => hfault e g' he hsame)
  -- no such user: the look-up decides
  · obtain ⟨g', hdoes, hsame, -, hfails⟩ := AccountGhost.exists_decided uni isHash (g := g)
      (c := .select (.email address) p) (r := .ok none)
      (e := .invalidCredentialsError "Invalid email or password.") rfl (.refl _)
      fun op hruns => ⟨(hop op hruns).2, by
        rw [(hop op hruns).1]
        exact .unknown hemail⟩
    refine ⟨g', hdoes, ?_⟩
    exact Program.meets_bind.mpr (accounting_verifyUnknown (herror _ g' hsame hfails)
      fun e he => hfault e g' he hsame)
  subst hrow
  refine Program.meets_bind.mpr (accounting_verify (fun v hv hhash hreplacement => ?_)
    (fun v hv => ?_) fun e he => hfault e _ he ⟨rfl, rfl⟩)
  · refine ⟨_, .inl rfl, ?_⟩
    rw [Program.onOk_ok, hv, if_neg (by decide)]
    -- the hash is upgraded where the verification asks for it
    rcases hr : v.replacementHash with _ | passwordHash
    · exact hok id row _ ⟨rfl, rfl⟩ rfl (.inl rfl) hemail hhash
    · refine Program.meets_bind.mpr (accounting_now (fun t => ?_)
        fun e he => hfault e _ he ⟨rfl, rfl⟩)
      refine Program.meets_bind.mpr ?_
      refine accounting_rehash rfl hhash (hreplacement _ hr) ?_ (fun stamp => ?_)
        fun e he => hfault e _ he ⟨rfl, rfl⟩
      · exact hok id row _ ⟨rfl, rfl⟩ rfl (.inl rfl) hemail hhash
      · exact hok id row _ ⟨rfl, rfl⟩ rfl (.inr ⟨_, rfl⟩) hemail hhash
  -- the wrong password: the verification decides
  · obtain ⟨g', hdoes, hsame, -, hfails⟩ := AccountGhost.exists_decided uni isHash
      (g := { g with effect := .locked id row })
      (c := .ext (.verify password row.passwordHash)) (r := .ok v)
      (e := .invalidCredentialsError "Invalid email or password.") rfl (.refl _)
      fun op hruns => ⟨(hop op hruns).2, by
        rw [(hop op hruns).1]
        exact .wrongPassword hemail hv⟩
    refine ⟨g', hdoes, ?_⟩
    rw [Program.onOk_ok, hv, if_pos rfl]
    exact herror _ g' ⟨hsame.request, hsame.reported⟩ hfails

/-- **A password change** is judged on the locked row, whose version it raises. -/
theorem meets_changePassword {userId : ℕ}
    {currentPassword newPassword newPasswordConfirmation : String}
    {Q : Except Exn ℕ → AccountGhost → Prop} (heffect : g.effect = .nothing)
    (hop : ∀ op, g.Runs op →
      op = .changePassword userId currentPassword newPassword newPasswordConfirmation ∧
      g.decided = false)
    (hok : ∀ (row : UserModel) passwordHash stamp g', g.Same g' → g'.decided = g.decided →
      g'.effect = .replaced userId row (row.replaced passwordHash stamp) →
      isHash currentPassword row.passwordHash = true → newPassword = newPasswordConfirmation →
      validatePassword uni newPassword row.emailNormalized = .ok () →
      isHash newPassword passwordHash = true → Q (.ok (row.sessionVersion + 1)) g')
    (herror : ∀ e g', g.Same g' → (g'.effect = .nothing ∨ (∃ row, g'.effect = .locked userId row) ∨
      e.isFault = true) → g'.Fails uni e → Q (.error e) g') :
    (changePassword uni userId currentPassword newPassword newPasswordConfirmation).Meets
      (accounting uni isHash) g Q := by
  have hfault : ∀ (e : Exn) g', e.isFault = true → g.Same g' → Q (.error e) g' :=
    fun e g' he hsame => herror e g' hsame (.inr (.inr he)) (AccountGhost.fails_of_fault he)
  unfold changePassword UserRepository.getByIdForUpdate
  refine Program.meets_bind.mpr (Program.meets_bind.mpr
    (Program.meets_perform.mpr ⟨.inl heffect, fun r hr => ?_⟩))
  rcases r with e | _ | row
  · exact ⟨g, .inl rfl, hfault e g hr.1 (.refl g)⟩
  · obtain ⟨g', hdoes, hsame, heffect', hfails⟩ := AccountGhost.exists_decided uni isHash (g := g)
      (c := .lock (.user userId) fun _ => true) (r := .ok none)
      (e := .invalidSessionError "The authenticated user no longer exists.") rfl (.refl _)
      fun op hruns => ⟨(hop op hruns).2, by
        rw [(hop op hruns).1]
        exact .noUser rfl⟩
    exact ⟨g', hdoes, herror _ g' hsame (.inl (heffect'.trans heffect)) hfails⟩
  refine ⟨{ g with effect := .locked userId row }, .inl rfl, ?_⟩
  -- a refusal is decided by the verification
  have hrefused : ∀ (v : PasswordVerification) (e : Exn),
      (∀ op, g.Runs op → Judges uni op (.locked userId row)
        (.ext (.verify currentPassword row.passwordHash)) (.ok v) e) →
      ∃ g', AccountGhost.Does uni isHash { g with effect := .locked userId row }
        (.ext (.verify currentPassword row.passwordHash)) (.ok v) g' ∧ Q (.error e) g' := by
    intro v e hjudges
    obtain ⟨g', hdoes, hsame, heffect', hfails⟩ := AccountGhost.exists_decided uni isHash
      (g := { g with effect := .locked userId row })
      (c := .ext (.verify currentPassword row.passwordHash)) (r := .ok v) (e := e) rfl (.refl _)
      fun op hruns => ⟨(hop op hruns).2, hjudges op hruns⟩
    exact ⟨g', hdoes, herror _ g' ⟨hsame.request, hsame.reported⟩ (.inr (.inl ⟨row, heffect'⟩))
      hfails⟩
  refine Program.meets_bind.mpr (accounting_verify (fun v hv hhash _ => ?_) (fun v hv => ?_)
    fun e he => hfault e _ he ⟨rfl, rfl⟩)
  · simp only [Program.onOk_ok, hv, Bool.true_eq_false, if_false]
    by_cases hconfirmed : newPassword = newPasswordConfirmation
    · simp only [if_neg (not_not.mpr hconfirmed), Program.bind_eq]
      rcases hpassword : validatePassword uni newPassword row.emailNormalized with e | u
      · obtain ⟨g', hdoes, hQ⟩ := hrefused v e fun op hruns => by
          rw [(hop op hruns).1]
          exact .badNewPassword hv hconfirmed hpassword
        exact ⟨g', hdoes, Program.meets_bind.mpr (meets_liftExcept.mpr (by
          rw [UserModel.detach, hpassword]
          exact hQ))⟩
      · refine ⟨_, .inl rfl, Program.meets_bind.mpr (meets_liftExcept.mpr ?_)⟩
        rw [UserModel.detach, hpassword]
        refine Program.meets_bind.mpr (accounting_hash (fun passwordHash hh => ?_)
          fun e he => hfault e _ he ⟨rfl, rfl⟩)
        refine Program.meets_bind.mpr (accounting_now (fun t => ?_)
          fun e he => hfault e _ he ⟨rfl, rfl⟩)
        refine Program.meets_bind.mpr (accounting_replace rfl (fun stamp => ?_)
          fun e he => hfault e _ he ⟨rfl, rfl⟩)
        exact hok row passwordHash stamp _ ⟨rfl, rfl⟩ rfl rfl hhash hconfirmed hpassword hh
    · obtain ⟨g', hdoes, hQ⟩ := hrefused v
        (.validationError "new_password_confirmation" "Passwords do not match.") fun op hruns => by
          rw [(hop op hruns).1]
          exact .unconfirmed hv hconfirmed
      refine ⟨g', hdoes, ?_⟩
      rw [if_pos hconfirmed]
      exact hQ
  · obtain ⟨g', hdoes, hQ⟩ := hrefused v
      (.currentPasswordMismatchError "Current password is incorrect.") fun op hruns => by
        rw [(hop op hruns).1]
        exact .mismatch hv
    refine ⟨g', hdoes, ?_⟩
    rw [Program.onOk_ok, hv, if_pos rfl]
    exact hQ

end Rules

end Lsstack
