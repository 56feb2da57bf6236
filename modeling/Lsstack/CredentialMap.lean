/-
The credential subsystem as a map.

What registration, login and password change do to the users is what they would do, one at
a time, to a map from normalized emails to user id, password and version: hash upgrades do
not show in it.

* `AccountOp.atomically` — the use cases on the map;
* `accounts` — the map of a database;
* `atomically_judged`, `atomically_committed` — each use case takes effect at one point: where
  its failure is decided, or at its commit;
* **`AccountRun.linearizable`** — in every run they have an order that respects real time.
-/
import Lsstack.OutboxDelivery
import Lsstack.PasswordChanges
import Lsstack.Linearization
import Lsstack.WorkerMarks

namespace Lsstack

open Concurrency

/-! ### The map -/

/-- What is kept of an account.  A hash that is one of no password opens to none. -/
structure Account where
  id : ℕ
  password : Option String
  version : ℕ

/-- By normalized email. -/
abbrev Accounts : Type := String → Option Account

open Classical in
/-- The account with an id, and its email. -/
noncomputable def Accounts.byId (accounts : Accounts) (userId : ℕ) : Option (String × Account) :=
  if h : ∃ found : String × Account, accounts found.1 = some found.2 ∧ found.2.id = userId then
    some h.choose
  else none

/-- A use case, all at once: its result, and the map after it.  `newId` is the id a new account
is given. -/
@[simp] noncomputable def AccountOp.atomically (uni : Unicode) (accounts : Accounts) (newId : ℕ) :
    AccountOp → Except Exn Outcome × Accounts
  | .register email password =>
    match normalizeEmail uni email with
    | .error error => (.error error, accounts)
    | .ok address =>
      match validatePassword uni password address with
      | .error error => (.error error, accounts)
      | .ok () =>
        match accounts address with
        | some _ => (.error (.duplicateEmailError "That email is already registered."), accounts)
        | none =>
          (.ok (.registered ⟨newId, address, 0⟩),
            Function.update accounts address (some ⟨newId, some password, 0⟩))
  | .authenticate email password =>
    match normalizeEmail uni email with
    | .error _ => (.error (.invalidCredentialsError "Invalid email or password."), accounts)
    | .ok address =>
      match accounts address with
      | none => (.error (.invalidCredentialsError "Invalid email or password."), accounts)
      | some account =>
        if account.password = some password then
          (.ok (.authenticated ⟨account.id, address, account.version⟩), accounts)
        else (.error (.invalidCredentialsError "Invalid email or password."), accounts)
  | .changePassword userId currentPassword newPassword newPasswordConfirmation =>
    match accounts.byId userId with
    | none =>
      (.error (.invalidSessionError "The authenticated user no longer exists."), accounts)
    | some (address, account) =>
      if account.password ≠ some currentPassword then
        (.error (.currentPasswordMismatchError "Current password is incorrect."), accounts)
      else if newPassword ≠ newPasswordConfirmation then
        (.error (.validationError "new_password_confirmation" "Passwords do not match."), accounts)
      else
        match validatePassword uni newPassword address with
        | .error error => (.error error, accounts)
        | .ok () =>
          (.ok (.passwordChanged userId (account.version + 1)),
            Function.update accounts address
              (some ⟨account.id, some newPassword, account.version + 1⟩))

/-- A new account is given an id that no other has. -/
def Atomically (uni : Unicode) (op : AccountOp) (accounts : Accounts) (r : Except Exn Outcome)
    (accounts' : Accounts) : Prop :=
  ∃ newId, op.atomically uni accounts newId = (r, accounts') ∧
    ∀ result, r = .ok (.registered result) →
      ∀ address account, accounts address = some account → account.id ≠ newId

/-! ### The map of a database -/

open Classical in
/-- The password of a hash. -/
noncomputable def passwordOf (isHash : String → String → Bool) (passwordHash : String) :
    Option String :=
  if h : ∃ password, isHash password passwordHash = true then some h.choose else none

/-- What a row says of its account. -/
noncomputable def UserModel.account (isHash : String → String → Bool) (id : ℕ) (row : UserModel) :
    Account :=
  ⟨id, passwordOf isHash row.passwordHash, row.sessionVersion⟩

/-- The committed users, by the entries of the email index. -/
noncomputable def accounts (isHash : String → String → Bool) (w : Db) : Accounts := fun address =>
  (w.row (.email address)).bind fun id => (w.row (.user id)).map (UserModel.account isHash id)

section Map

variable {isHash : String → String → Bool} {w w' : Db} {id : ℕ} {row : UserModel}
  {address : String} {account : Account}

/-- A hash is one of a single password. -/
def HashesApart (isHash : String → String → Bool) : Prop :=
  ∀ password password' passwordHash, isHash password passwordHash = true →
    isHash password' passwordHash = true → password = password'

theorem passwordOf_iff (hapart : HashesApart isHash) {password passwordHash : String} :
    passwordOf isHash passwordHash = some password ↔ isHash password passwordHash = true := by
  unfold passwordOf
  split
  · rename_i h
    rw [Option.some_inj]
    constructor
    · rintro rfl
      exact h.choose_spec
    · exact fun hhash => hapart _ _ _ h.choose_spec hhash
  · rename_i h
    exact ⟨(fun hnone => by cases hnone), fun hhash => absurd ⟨_, hhash⟩ h⟩

theorem accounts_of_row_eq (h : ∀ k, w'.row k = w.row k) :
    accounts isHash w' = accounts isHash w := by
  funext address
  rw [accounts, accounts, h]
  refine congrArg _ (funext fun id => ?_)
  rw [h]

theorem accounts_none (h : w.row (.email address) = none) : accounts isHash w address = none := by
  rw [accounts, h, Option.bind_none]

/-- The index leads to the users. -/
theorem accounts_iff (hw : Indexed w) :
    accounts isHash w address = some account ↔ ∃ id row, w.row (.user id) = some row ∧
      row.emailNormalized = address ∧ account = row.account isHash id := by
  rw [accounts, Option.bind_eq_some_iff]
  constructor
  · rintro ⟨id, hindex, hrow⟩
    obtain ⟨row, huser, rfl⟩ := Option.map_eq_some_iff.mp hrow
    obtain ⟨row', huser', hemail⟩ := Option.map_eq_some_iff.mp ((hw address id).mp hindex)
    obtain rfl := Option.some_inj.mp (huser.symm.trans huser')
    exact ⟨id, row, huser, hemail, rfl⟩
  · rintro ⟨id, row, huser, hemail, rfl⟩
    have hindex : w.row (.email address) = some id := by
      refine (hw address id).mpr ?_
      rw [emailOf, huser, Option.map_some, hemail]
    exact ⟨id, hindex, by rw [huser, Option.map_some]⟩

theorem accounts_user (hw : Indexed w) (h : w.row (.user id) = some row) :
    accounts isHash w row.emailNormalized = some (row.account isHash id) :=
  (accounts_iff hw).mpr ⟨id, row, h, rfl, rfl⟩

/-- A taken entry of the index belongs to an account. -/
theorem accounts_taken (hw : Indexed w) (h : w.row (.email address) = some id) :
    ∃ account, accounts isHash w address = some account := by
  obtain ⟨row, huser, rfl⟩ := Option.map_eq_some_iff.mp ((hw address id).mp h)
  exact ⟨_, accounts_user hw huser⟩

theorem byId_user (hw : Indexed w) (h : w.row (.user id) = some row) :
    (accounts isHash w).byId id = some (row.emailNormalized, row.account isHash id) := by
  have hfound : ∃ found : String × Account, accounts isHash w found.1 = some found.2 ∧
      found.2.id = id := ⟨(row.emailNormalized, row.account isHash id), accounts_user hw h, rfl⟩
  rw [Accounts.byId, dif_pos hfound, Option.some_inj]
  obtain ⟨haccount, hid⟩ := hfound.choose_spec
  obtain ⟨id', row', hrow', hemail', heq⟩ := (accounts_iff hw).mp haccount
  rw [heq] at hid
  obtain rfl : id' = id := hid
  obtain rfl := Option.some_inj.mp (hrow'.symm.trans h)
  exact Prod.ext hemail'.symm heq

theorem byId_none (hw : Indexed w) (h : w.row (.user id) = none) :
    (accounts isHash w).byId id = none := by
  refine dif_neg ?_
  rintro ⟨⟨address, account⟩, haccount, hid⟩
  obtain ⟨id', row', hrow', -, rfl⟩ := (accounts_iff hw).mp haccount
  obtain rfl : id' = id := hid
  cases h.symm.trans hrow'

end Map

/-! ### Where a use case takes effect -/

section Points

variable {uni : Unicode} {isHash : String → String → Bool} {w w' : Db} {op : AccountOp}

/-- A use case that changes nothing but raises. -/
theorem atomically_error {accounts : Accounts} {e : Exn} (newId : ℕ)
    (h : op.atomically uni accounts newId = (.error e, accounts)) :
    Atomically uni op accounts (.error e) accounts :=
  ⟨newId, h, fun _ hr => by cases hr⟩

section Refusals

variable {email password address : String} {e : Exn} {m : Accounts}

theorem register_badEmail (h : normalizeEmail uni email = .error e) :
    Atomically uni (.register email password) m (.error e) m := by
  refine atomically_error 0 ?_
  rw [AccountOp.atomically, h]

theorem register_badPassword (h : normalizeEmail uni email = .ok address)
    (hpassword : validatePassword uni password address = .error e) :
    Atomically uni (.register email password) m (.error e) m := by
  refine atomically_error 0 ?_
  rw [AccountOp.atomically, h]
  dsimp only
  rw [hpassword]

theorem register_duplicate (h : normalizeEmail uni email = .ok address)
    (hpassword : validatePassword uni password address = .ok ()) {account : Account}
    (haccount : m address = some account) :
    Atomically uni (.register email password) m
      (.error (.duplicateEmailError "That email is already registered.")) m := by
  refine atomically_error 0 ?_
  rw [AccountOp.atomically, h]
  dsimp only
  rw [hpassword]
  dsimp only
  rw [haccount]

theorem authenticate_noEmail (h : normalizeEmail uni email = .error e) :
    Atomically uni (.authenticate email password) m
      (.error (.invalidCredentialsError "Invalid email or password.")) m := by
  refine atomically_error 0 ?_
  rw [AccountOp.atomically, h]

theorem authenticate_unknown (h : normalizeEmail uni email = .ok address)
    (haccount : m address = none) :
    Atomically uni (.authenticate email password) m
      (.error (.invalidCredentialsError "Invalid email or password.")) m := by
  refine atomically_error 0 ?_
  rw [AccountOp.atomically, h]
  dsimp only
  rw [haccount]

theorem authenticate_wrongPassword (h : normalizeEmail uni email = .ok address) {account : Account}
    (haccount : m address = some account) (hpassword : account.password ≠ some password) :
    Atomically uni (.authenticate email password) m
      (.error (.invalidCredentialsError "Invalid email or password.")) m := by
  refine atomically_error 0 ?_
  rw [AccountOp.atomically, h]
  dsimp only
  rw [haccount]
  dsimp only
  rw [if_neg hpassword]

variable {userId : ℕ} {currentPassword newPassword newPasswordConfirmation : String}

theorem changePassword_noUser (h : m.byId userId = none) :
    Atomically uni (.changePassword userId currentPassword newPassword newPasswordConfirmation) m
      (.error (.invalidSessionError "The authenticated user no longer exists.")) m := by
  refine atomically_error 0 ?_
  rw [AccountOp.atomically, h]

variable {account : Account} (hfound : m.byId userId = some (address, account))

include hfound

theorem changePassword_mismatch (hpassword : account.password ≠ some currentPassword) :
    Atomically uni (.changePassword userId currentPassword newPassword newPasswordConfirmation) m
      (.error (.currentPasswordMismatchError "Current password is incorrect.")) m := by
  refine atomically_error 0 ?_
  rw [AccountOp.atomically, hfound]
  dsimp only
  rw [if_pos hpassword]

theorem changePassword_unconfirmed (hpassword : account.password = some currentPassword)
    (h : newPassword ≠ newPasswordConfirmation) :
    Atomically uni (.changePassword userId currentPassword newPassword newPasswordConfirmation) m
      (.error (.validationError "new_password_confirmation" "Passwords do not match.")) m := by
  refine atomically_error 0 ?_
  rw [AccountOp.atomically, hfound]
  dsimp only
  rw [if_neg (not_not.mpr hpassword), if_pos h]

theorem changePassword_badPassword (hpassword : account.password = some currentPassword)
    (h : newPassword = newPasswordConfirmation)
    (hnew : validatePassword uni newPassword address = .error e) :
    Atomically uni (.changePassword userId currentPassword newPassword newPasswordConfirmation) m
      (.error e) m := by
  refine atomically_error 0 ?_
  rw [AccountOp.atomically, hfound]
  dsimp only
  rw [if_neg (not_not.mpr hpassword), if_neg (not_not.mpr h), hnew]

end Refusals

/-- What the email index is asked for, and what a single use case commits. -/
def CredentialCommand : Command → Prop
  | .select (.email _) p => p = fun _ => true
  | .commit (.visited _) => False
  | _ => True

variable {i : ℕ} {p : Option AccountProcess} {g g' : AccountGhost} {c : Command}
  {r : Except Exn c.Reply} {x : Choice Fault Decision}

/-- **A failure is decided** where the map has the use case fail. -/
theorem atomically_judged (hapart : HashesApart isHash) (hw : Indexed w)
    (ha : AccountAsserts isHash w i p g) (hguard : g.Permits uni isHash c)
    (hkind : CredentialCommand c) (hreply : g.Replies isHash c r) {e : Exn}
    (hjudges : Judges uni op g.effect c r e)
    (he : exec Fault.exn (outside isHash) w i c x = some (r, w')) :
    Atomically uni op (accounts isHash w) (.error e) (accounts isHash w) := by
  -- a verification under the lock is one of the account's password
  have hpassword : ∀ {password : String} {id : ℕ} {row : UserModel} {v : PasswordVerification},
      v.valid = isHash password row.passwordHash →
      ((row.account isHash id).password = some password ↔ v.valid = true) := by
    intro password id row v hv
    rw [hv]
    exact passwordOf_iff hapart
  generalize heffect : g.effect = effect at hjudges
  cases hjudges with
  | badEmail h => exact register_badEmail h
  | badPassword h hbad => exact register_badPassword h hbad
  | @duplicate email password address id h hgood =>
    obtain ⟨-, e, hr⟩ | ⟨-, -, -, id', hview⟩ | ⟨-, hr, -⟩ := exec_insert he
    · cases hr
    · have hl := ha.locks
      rw [heffect] at hl
      have htaken : w.row (.email address) = some id' :=
        (hl.view_eq_row (k := .email address) trivial trivial).symm.trans hview
      obtain ⟨account, haccount⟩ := accounts_taken hw htaken
      exact register_duplicate h hgood haccount
    · cases hr
  | noEmail h => exact authenticate_noEmail h
  | @unknown email password address _ q h =>
    obtain rfl : q = fun _ => true := hkind
    have hl := ha.locks
    rw [show g.effect = .nothing from hguard] at hl
    obtain ⟨-, ⟨e, hr⟩ | hr⟩ := exec_select he
    · cases hr
    · refine authenticate_unknown h (accounts_none ?_)
      rw [← hl.view_eq_row (k := .email address) trivial trivial]
      rcases hview : (w.cell (.email address)).view i with _ | id
      · rfl
      · rw [hview] at hr
        cases hr
  | @wrongPassword email password id row v h hv =>
    have hrow := ha.row_locked heffect
    refine authenticate_wrongPassword h (accounts_user hw hrow) ?_
    rw [Ne, hpassword hreply.1, hv]
    exact Bool.false_ne_true
  | @noUser id _ _ _ _ q hq =>
    subst hq
    have hl := ha.locks
    have hu : g.effect.Unlocked := by
      obtain hnothing | ⟨address, hfound⟩ := hguard
      · rw [hnothing]
        trivial
      · rw [hfound]
        trivial
    refine changePassword_noUser (byId_none hw ?_)
    rw [← hl.view_eq_row (k := .user id) hu trivial]
    obtain ⟨-, e, hr⟩ | ⟨-, -, habsent⟩ | ⟨row, -, hr, -⟩ := exec_lock he
    · cases hr
    · rcases hview : (w.cell (.user id)).view i with _ | row
      · rfl
      · cases World.acquire_absent habsent row hview
    · cases hr
  | @mismatch id _ _ _ row v hv =>
    refine changePassword_mismatch (byId_user hw (ha.row_locked heffect)) ?_
    rw [Ne, hpassword hreply.1, hv]
    exact Bool.false_ne_true
  | @unconfirmed id _ _ _ row v hv h =>
    exact changePassword_unconfirmed (byId_user hw (ha.row_locked heffect))
      ((hpassword hreply.1).mpr hv) h
  | @badNewPassword id _ _ _ row v e hv h hbad =>
    exact changePassword_badPassword (byId_user hw (ha.row_locked heffect))
      ((hpassword hreply.1).mpr hv) h hbad

/-- Where the users and the index stay, so does the map. -/
theorem accounts_same (husers : ∀ id, w'.row (.user id) = w.row (.user id))
    (hemails : ∀ address, w'.row (.email address) = w.row (.email address)) :
    accounts isHash w' = accounts isHash w := by
  funext address
  rw [accounts, accounts, hemails]
  refine congrArg _ (funext fun id => ?_)
  rw [husers]

/-- Where one user's row changes, so does its account. -/
theorem accounts_update (hw : Indexed w) {id : ℕ} {row row' : UserModel}
    (was : w.row (.user id) = some row) (becomes : w'.row (.user id) = some row')
    (husers : ∀ id', id' ≠ id → w'.row (.user id') = w.row (.user id'))
    (hemails : ∀ address, w'.row (.email address) = w.row (.email address)) :
    accounts isHash w' = Function.update (accounts isHash w) row.emailNormalized
      (some (row'.account isHash id)) := by
  have hindex : w.row (.email row.emailNormalized) = some id := by
    refine (hw _ id).mpr ?_
    rw [emailOf, was, Option.map_some]
  funext address
  by_cases haddress : address = row.emailNormalized
  · subst haddress
    rw [Function.update_self, accounts, hemails, hindex, Option.bind_some, becomes,
      Option.map_some]
  · rw [Function.update_of_ne haddress, accounts, accounts, hemails]
    rcases hother : w.row (.email address) with _ | id'
    · rfl
    · have hid : id' ≠ id := by
        rintro rfl
        have hemail := (hw address id').mp hother
        rw [emailOf, was, Option.map_some, Option.some_inj] at hemail
        exact haddress hemail.symm
      rw [Option.bind_some, Option.bind_some, husers id' hid]

/-- A new user is a new account. -/
theorem accounts_insert (hw : Indexed w) {id : ℕ} {row : UserModel}
    (was : w.row (.user id) = none) (becomes : w'.row (.user id) = some row)
    (indexed : w'.row (.email row.emailNormalized) = some id)
    (husers : ∀ id', id' ≠ id → w'.row (.user id') = w.row (.user id'))
    (hemails : ∀ address, address ≠ row.emailNormalized →
      w'.row (.email address) = w.row (.email address)) :
    accounts isHash w' = Function.update (accounts isHash w) row.emailNormalized
      (some (row.account isHash id)) := by
  funext address
  by_cases haddress : address = row.emailNormalized
  · subst haddress
    rw [Function.update_self, accounts, indexed, Option.bind_some, becomes, Option.map_some]
  · rw [Function.update_of_ne haddress, accounts, accounts, hemails address haddress]
    rcases hother : w.row (.email address) with _ | id'
    · rfl
    · have hid : id' ≠ id := by
        rintro rfl
        have hemail := (hw address id').mp hother
        rw [emailOf, was, Option.map_none] at hemail
        cases hemail
      rw [Option.bind_some, Option.bind_some, husers id' hid]

/-- **A commit** does on the map what the use case does all at once. -/
theorem atomically_committed (hapart : HashesApart isHash) (hw : Indexed w) {q : AccountRequest}
    {out : Outcome} (hop : q.op = some op) (hkind : CredentialCommand (.commit out))
    (hwritten : g.Written uni isHash q out) (hstep : AccountStep isHash w w' g.effect) :
    Atomically uni op (accounts isHash w) (.ok out) (accounts isHash w') := by
  cases out with
  | registered result =>
    obtain ⟨email, password, row, hq, heffect, hresult, hversion, hemail, hgood, hhash⟩ := hwritten
    obtain rfl := Option.some_inj.mp (hop.symm.trans hq)
    obtain ⟨id, address, version⟩ := result
    obtain ⟨-, rfl, rfl⟩ := AuthResult.mk.inj hresult
    replace heffect : g.effect = .inserted id row := heffect
    rw [heffect] at hstep
    cases hstep with
    | inserted was free becomes indexed users emails =>
      have haccount : row.account isHash id = ⟨id, some password, 0⟩ := by
        rw [UserModel.account, (passwordOf_iff hapart).mpr hhash, hversion]
      refine ⟨id, ?_, fun result' hresult' address account hother hid => ?_⟩
      · rw [AccountOp.atomically, hemail]
        dsimp only
        rw [hgood]
        dsimp only
        rw [accounts_none free, accounts_insert hw was becomes indexed users emails, haccount]
      · obtain ⟨id', row', hrow', -, rfl⟩ := (accounts_iff hw).mp hother
        obtain rfl : id' = id := hid
        cases was.symm.trans hrow'
  | authenticated result =>
    obtain ⟨email, password, row, hq, heffect, hresult, hemail, hhash⟩ := hwritten
    obtain rfl := Option.some_inj.mp (hop.symm.trans hq)
    obtain ⟨id, address, version⟩ := result
    obtain ⟨-, rfl, rfl⟩ := AuthResult.mk.inj hresult
    replace heffect : g.effect = .locked id row ∨ ∃ row', g.effect = .rehashed id row row' :=
      heffect
    -- whether the hash was upgraded or not, the account is as it was
    have hmap : w.row (.user id) = some row ∧ accounts isHash w' = accounts isHash w := by
      obtain heffect | ⟨row', heffect⟩ := heffect
      · rw [heffect] at hstep
        cases hstep with
        | locked was users emails => exact ⟨was, accounts_same users emails⟩
      · rw [heffect] at hstep
        cases hstep with
        | rehashed was becomes rehashes users emails =>
          obtain ⟨passwordHash, stamp, rfl, password', hold, hnew⟩ := rehashes
          have hsame : (row.rehashed passwordHash stamp).account isHash id =
              row.account isHash id := by
            rw [UserModel.account, UserModel.account, (passwordOf_iff hapart).mpr hold]
            exact congrArg₂ (Account.mk id) ((passwordOf_iff hapart).mpr hnew) rfl
          refine ⟨was, ?_⟩
          rw [accounts_update hw was becomes users emails, hsame,
            ← accounts_user hw was, Function.update_eq_self]
    obtain ⟨hrow, hsame⟩ := hmap
    refine ⟨0, ?_, fun _ hr => by cases hr⟩
    rw [AccountOp.atomically, hemail]
    dsimp only
    rw [accounts_user hw hrow, hsame]
    exact if_pos ((passwordOf_iff hapart).mpr hhash)
  | passwordChanged userId version =>
    obtain ⟨currentPassword, newPassword, newPasswordConfirmation, row, passwordHash, stamp, hq,
      heffect, rfl, hhash, rfl, hgood, hhash'⟩ := hwritten
    obtain rfl := Option.some_inj.mp (hop.symm.trans hq)
    rw [heffect] at hstep
    cases hstep with
    | replaced was becomes replaces users emails =>
      refine ⟨0, ?_, fun _ hr => by cases hr⟩
      have haccount : (row.replaced passwordHash stamp).account isHash userId =
          ⟨userId, some newPassword, row.sessionVersion + 1⟩ :=
        congrArg₂ (Account.mk userId) ((passwordOf_iff hapart).mpr hhash') rfl
      have hcurrent : (row.account isHash userId).password = some currentPassword :=
        (passwordOf_iff hapart).mpr hhash
      rw [AccountOp.atomically, byId_user hw was]
      dsimp only
      rw [if_neg (not_not.mpr hcurrent), if_neg (not_not.mpr rfl), hgood,
        accounts_update hw was becomes users emails, haccount]
      rfl
  | seeded result =>
    cases hop.symm.trans hwritten.1
  | visited user => exact hkind.elim
  | _ => exact hwritten.elim

end Points

/-! ### What the use cases ask for -/

section Commands

variable {uni : Unicode}

theorem issues_credential {α : Type} {outcome : α → Outcome} {operation : Tx α}
    (h : operation.Issues CredentialCommand) (hout : ∀ a user, outcome a ≠ .visited user) :
    (accountTransaction outcome operation).Issues CredentialCommand := by
  have hcommit : ∀ a, CredentialCommand (.commit (outcome a)) := by
    intro a
    rcases hresult : outcome a with _ | _ | _ | _ | user
    case visited => exact (hout a user hresult).elim
    all_goals trivial
  refine Program.Issues.bind (Program.Issues.handle (h.bind fun a => ?_) fun e => ?_) fun _ =>
    .ret _
  · exact (Program.Issues.perform (hcommit a)).bind fun _ => .ret _
  · exact (Program.Issues.perform trivial).bind fun _ => .raise _

theorem issues_updateCredentials (user : User) :
    (UserRepository.updateCredentials user).Issues CredentialCommand := by
  unfold UserRepository.updateCredentials
  split
  · exact .raise _
  · refine Program.Issues.bind (.perform trivial) fun loaded => ?_
    rcases loaded with _ | loaded
    · exact .raise _
    · refine Program.Issues.bind ?_ fun _ => .ret _
      have hwrite : ∀ id (assigned : UserModel) stamp,
          (UserModel.write id loaded assigned stamp).Issues CredentialCommand := by
        intro id assigned stamp
        refine Program.Issues.bind (.perform trivial) fun updated => ?_
        cases updated with
        | none => exact .raise _
        | some row => exact .ret _
      rw [UserModel.flush_eq]
      split
      · exact .ret _
      · split
        · exact Program.Issues.bind (.perform trivial) fun stamp => hwrite _ _ stamp
        · exact hwrite _ _ _

theorem issues_add (user : User) : (UserRepository.add uni user).Issues CredentialCommand := by
  refine Program.Issues.bind (Program.Issues.handle ?_ fun e => ?_) fun _ => .ret _
  · refine Program.Issues.bind (.perform trivial) fun id => ?_
    refine Program.Issues.bind (.perform trivial) fun indexed => ?_
    cases indexed with
    | false => exact .raise _
    | true =>
      refine Program.Issues.bind (.perform trivial) fun inserted => ?_
      cases inserted with
      | false => exact .raise _
      | true => exact .ret _
  · cases e with
    | integrityError orig =>
      dsimp only
      split
      · exact .raise _
      · exact .raise _
    | _ => exact .raise _

theorem issues_register (email password : String) :
    (register uni email password).Issues CredentialCommand := by
  unfold register
  refine Program.Issues.bind (issues_liftExcept _) fun address => ?_
  refine Program.Issues.bind (issues_liftExcept _) fun _ => ?_
  refine Program.Issues.bind (.perform trivial) fun time => ?_
  refine Program.Issues.bind (.perform trivial) fun passwordHash => ?_
  refine Program.Issues.bind (issues_add _) fun user => ?_
  split
  · exact .raise _
  · exact .ret _

theorem issues_authenticate (email password : String) :
    (authenticate uni email password).Issues CredentialCommand := by
  -- an unknown or malformed email costs a verification as well
  have hrefused : ∀ message : String, ((call (.verifyUnknown password)).bind fun _ =>
      (.raise (.invalidCredentialsError message) : Tx AuthResult)).Issues CredentialCommand :=
    fun _ => Program.Issues.bind (.perform trivial) fun _ => .raise _
  unfold authenticate
  split
  · exact hrefused _
  · exact .raise _
  · refine Program.Issues.bind ?_ fun user => ?_
    · refine Program.Issues.bind (.perform rfl) fun userId => ?_
      cases userId with
      | none => exact .ret _
      | some userId => exact Program.Issues.bind (.perform trivial) fun _ => .ret _
    · cases user with
      | none => exact hrefused _
      | some user =>
        refine Program.Issues.bind (.perform trivial) fun verification => ?_
        split
        · exact .raise _
        · cases verification.replacementHash with
          | none =>
            refine Program.Issues.bind (.ret _) fun user => ?_
            dsimp only
            split
            · exact .raise _
            · exact .ret _
          | some replacementHash =>
            refine Program.Issues.bind (.perform trivial) fun time => ?_
            refine Program.Issues.bind (issues_updateCredentials _) fun user => ?_
            dsimp only
            split
            · exact .raise _
            · exact .ret _

theorem issues_changePassword (userId : ℕ)
    (currentPassword newPassword newPasswordConfirmation : String) :
    (changePassword uni userId currentPassword newPassword newPasswordConfirmation).Issues
      CredentialCommand := by
  unfold changePassword
  refine Program.Issues.bind ?_ fun user => ?_
  · exact Program.Issues.bind (.perform trivial) fun _ => .ret _
  cases user with
  | none => exact .raise _
  | some user =>
    refine Program.Issues.bind (.perform trivial) fun verification => ?_
    split
    · exact .raise _
    · split
      · exact .raise _
      · refine Program.Issues.bind (issues_liftExcept _) fun _ => ?_
        refine Program.Issues.bind (.perform trivial) fun passwordHash => ?_
        refine Program.Issues.bind (.perform trivial) fun time => ?_
        exact Program.Issues.bind (issues_updateCredentials _) fun _ => .ret _

/-- The single use cases. -/
theorem issues_single (lifetime : Duration) {q : AccountRequest} (hsingle : q.single = true) :
    (q.code uni lifetime).Issues CredentialCommand := by
  cases q with
  | register email password =>
    exact issues_credential (issues_register _ _) fun _ _ h => by cases h
  | authenticate email password =>
    exact issues_credential (issues_authenticate _ _) fun _ _ h => by cases h
  | changePassword userId currentPassword newPassword newPasswordConfirmation =>
    exact issues_credential (issues_changePassword _ _ _ _) fun _ _ h => by cases h
  | _ => cases hsingle

end Commands

/-! ### Runs -/

/-- A use case has taken effect: its result is committed, or its failure decided. -/
def AccountGhost.Took (w : Db) (i : ℕ) (g : AccountGhost) : Except Exn Outcome → Prop
  | .ok out => (i, out) ∈ w.log
  | .error e => g.verdict = some e

/-- The use cases that have taken effect, in order, and the map they lead to. -/
structure CredentialOrder (uni : Unicode) (isHash : String → String → Bool) (lifetime : Duration)
    (first : Accounts) (cfg : AccountConfig) (order : List (ℕ × AccountOp × Except Exn Outcome))
    (g : ℕ → AccountGhost) : Prop where
  invariant : RelyGuarantee.Invariant Indexed (AccountAsserts isHash) cfg g
  agrees : ∀ i, Process.Agrees (accounting uni isHash)
    (fun (q : AccountRequest) r (g : AccountGhost) => g.request = some q ∧ g.Ends lifetime r)
    AccountGhost.idle (cfg.procs i) (g i)
  issues : ∀ i q calls rest, cfg.procs i = some ⟨q, calls, some rest⟩ →
    rest.Issues CredentialCommand
  single : ∀ i p, cfg.procs i = some p → p.request.single = true
  serial : Serial (Atomically uni) first order (accounts isHash cfg.world)
  once : (order.map Prod.fst).Nodup
  entries : ∀ i op r, (i, op, r) ∈ order ↔ ∃ p, cfg.procs i = some p ∧ p.request.op = some op ∧
    (g i).Took cfg.world i r
  verdicts : ∀ i e, (g i).verdict = some e →
    (g i).decided = true ∧ ∀ out, (i, out) ∉ cfg.world.log

/-- A move decides nothing. -/
theorem AccountGhost.Moves.verdict {isHash : String → String → Bool} {g g' : AccountGhost}
    {c : Command} {r : Except Exn c.Reply} (h : g.Moves isHash c r g') :
    g'.verdict = g.verdict := by
  cases h.move <;> rfl

/-- What a statement of a use case does: nothing to the map, or the use case takes effect. -/
theorem credential_effect {uni : Unicode} {isHash : String → String → Bool}
    (hapart : HashesApart isHash) {w w' : Db} {i : ℕ} {q : AccountRequest}
    {calls : List ((c : Command) × Except Exn c.Reply)} {rest : Option (Tx AccountResponse)}
    {g g' : AccountGhost} {c : Command} {r : Except Exn c.Reply} {x : Choice Fault Decision}
    {op : AccountOp} (hsingle : q.single = true) (hop : q.op = some op) (hw : Indexed w)
    (ha : AccountAsserts isHash w i (some ⟨q, calls, rest⟩) g) (hguard : g.Permits uni isHash c)
    (hkind : CredentialCommand c) (hreply : g.Replies isHash c r) (hdoes : g.Does uni isHash c r g')
    (he : exec Fault.exn (outside isHash) w i c x = some (r, w')) :
    (accounts isHash w' = accounts isHash w ∧ w'.log = w.log ∧ g'.verdict = g.verdict) ∨
    ∃ result, g.decided = false ∧ g'.decided = true ∧
      Atomically uni op (accounts isHash w) result (accounts isHash w') ∧
      ((∃ out, result = .ok out ∧ w'.log = (i, out) :: w.log ∧ g'.verdict = g.verdict) ∨
        ∃ e, result = .error e ∧ w'.log = w.log ∧ g'.verdict = some e) := by
  have hrequest : g.request = some q := ha.request _ rfl
  obtain ⟨hrows, hlog⟩ | ⟨out, rfl, rfl⟩ := exec_row he
  · have hmap : accounts isHash w' = accounts isHash w := accounts_of_row_eq hrows
    -- no commit: the map stays, and at most a failure is decided here
    obtain hmoves | ⟨g₁, op', e, hmoves, hruns, hfresh, hjudges, rfl⟩ := hdoes
    · exact .inl ⟨hmap, hlog, hmoves.verdict⟩
    · have hsame : op' = op := by
        obtain ⟨q', hq', -, hop'⟩ := hruns
        obtain rfl := Option.some_inj.mp (hrequest.symm.trans hq')
        exact Option.some_inj.mp (hop'.symm.trans hop)
      subst hsame
      refine .inr ⟨.error e, hfresh, rfl, ?_, .inr ⟨e, rfl, hlog, rfl⟩⟩
      rw [hmap]
      exact atomically_judged hapart hw ha hguard hkind hreply hjudges he
  -- a commit: the ghost knows what is written under it
  · obtain ⟨q', hq', hwritten, hfresh⟩ := hguard
    obtain rfl := Option.some_inj.mp (hrequest.symm.trans hq')
    obtain hmoves | ⟨g₁, op', e, hmoves, hruns, -, hjudges, rfl⟩ := hdoes
    · have hdecided : g'.decided = true := by
        rcases r with e | u
        · obtain rfl := hmoves
          rfl
        · obtain rfl := hmoves
          rfl
      exact .inr ⟨.ok out, hfresh hsingle, hdecided,
        atomically_committed hapart hw hop hkind hwritten (ha.locks.commit hwritten.done out),
        .inl ⟨out, rfl, rfl, hmoves.verdict⟩⟩
    · generalize g.effect = effect at hjudges
      cases hjudges

namespace CredentialOrder

variable {uni : Unicode} {isHash : String → String → Bool} {lifetime : Duration} {first : Accounts}
  {cfg : AccountConfig} {order : List (ℕ × AccountOp × Except Exn Outcome)} {g : ℕ → AccountGhost}

/-- Nothing has taken effect of a use case that is not decided. -/
theorem undecided (h : CredentialOrder uni isHash lifetime first cfg order g) {i : ℕ}
    {p : AccountProcess} (hp : cfg.procs i = some p) (hfresh : (g i).decided = false) :
    (∀ out, (i, out) ∉ cfg.world.log) ∧ (g i).verdict = none ∧ i ∉ order.map Prod.fst := by
  have ha := h.invariant.2 i
  rw [hp] at ha
  have hlog := ha.decided p.request (ha.request p rfl) (h.single i p hp) hfresh
  have hverdict : (g i).verdict = none := by
    rcases hv : (g i).verdict with _ | e
    · rfl
    · cases hfresh.symm.trans (h.verdicts i e hv).1
  refine ⟨hlog, hverdict, fun hmem => ?_⟩
  obtain ⟨⟨i', op, r⟩, hentry, rfl⟩ := List.mem_map.mp hmem
  obtain ⟨-, -, -, htook⟩ := (h.entries _ op r).mp hentry
  cases r with
  | ok out => exact hlog out htook
  | error e => cases hverdict.symm.trans htook

/-- Process `i` moves, and `new` has taken effect. -/
theorem move (h : CredentialOrder uni isHash lifetime first cfg order g) {i : ℕ}
    {p' : AccountProcess} {w : Db} {g' : AccountGhost}
    {new : List (ℕ × AccountOp × Except Exn Outcome)}
    (hinvariant : RelyGuarantee.Invariant Indexed (AccountAsserts isHash) (cfg.set i p' w)
      (Function.update g i g'))
    (hagrees : Process.Agrees (accounting uni isHash)
      (fun (q : AccountRequest) r (g : AccountGhost) => g.request = some q ∧ g.Ends lifetime r)
      AccountGhost.idle (some p') g')
    (hissues : ∀ rest, p'.rest = some rest → rest.Issues CredentialCommand)
    (hsingle : p'.request.single = true)
    (hserial : Serial (Atomically uni) first (order ++ new) (accounts isHash w))
    (honce : ((order ++ new).map Prod.fst).Nodup) (hnew : ∀ entry ∈ new, entry.1 = i)
    (hmine : ∀ op r, (i, op, r) ∈ order ++ new ↔ p'.request.op = some op ∧ g'.Took w i r)
    (hlog : ∀ j out, j ≠ i → ((j, out) ∈ w.log ↔ (j, out) ∈ cfg.world.log))
    (hverdict : ∀ e, g'.verdict = some e → g'.decided = true ∧ ∀ out, (i, out) ∉ w.log) :
    CredentialOrder uni isHash lifetime first (cfg.set i p' w) (order ++ new)
      (Function.update g i g') where
  invariant := hinvariant
  agrees := Sound.agrees_update h.agrees hagrees
  -- the other processes are as they were; for process `i` the assumptions say it
  issues := by
    intro j q calls rest hp
    by_cases hj : j = i
    · subst hj
      rw [Config.set_procs_self, Option.some_inj] at hp
      exact hissues rest (by rw [hp])
    · rw [Config.set_procs_of_ne _ hj] at hp
      exact h.issues j q calls rest hp
  single := by
    intro j p hp
    by_cases hj : j = i
    · subst hj
      rw [Config.set_procs_self, Option.some_inj] at hp
      rw [← hp]
      exact hsingle
    · rw [Config.set_procs_of_ne _ hj] at hp
      exact h.single j p hp
  serial := hserial
  once := honce
  entries := by
    intro j op r
    by_cases hj : j = i
    · subst hj
      rw [hmine, Function.update_self, Config.set_procs_self]
      refine ⟨fun hright => ⟨p', rfl, hright⟩, ?_⟩
      rintro ⟨p, hp, hright⟩
      rw [Option.some_inj.mp hp]
      exact hright
    -- what the others took is the same, and the new entries are not theirs
    · have hold : (j, op, r) ∈ order ++ new ↔ (j, op, r) ∈ order := by
        rw [List.mem_append]
        exact or_iff_left fun hmem => hj (hnew _ hmem)
      have htook : (g j).Took w j r ↔ (g j).Took cfg.world j r := by
        cases r with
        | ok out => exact hlog j out hj
        | error e => exact Iff.rfl
      rw [hold, h.entries, Config.set_procs_of_ne _ hj, Function.update_of_ne hj]
      exact exists_congr fun p => and_congr_right fun _ => and_congr_right fun _ => htook.symm
  verdicts := by
    intro j e hv
    by_cases hj : j = i
    · subst hj
      rw [Function.update_self] at hv ⊢
      exact hverdict e hv
    · rw [Function.update_of_ne hj] at hv ⊢
      obtain ⟨hdecided, hnone⟩ := h.verdicts j e hv
      exact ⟨hdecided, fun out hmem => hnone out ((hlog j out hj).mp hmem)⟩

/-- A process that has not arrived has not taken effect. -/
theorem start (h : CredentialOrder uni isHash lifetime first cfg order g) {i : ℕ}
    {q : AccountRequest} (hfree : cfg.procs i = none) (hsingle : q.single = true) :
    CredentialOrder uni isHash lifetime first
      (cfg.set i ⟨q, [], some (q.code uni lifetime)⟩ cfg.world) order
      (Function.update g i q.ghost) := by
  have ha := h.invariant.2 i
  -- a process that has not arrived has no entry and has decided nothing
  have hidle : g i = .idle := by
    have hagrees := h.agrees i
    rw [hfree] at hagrees
    exact hagrees
  rw [hfree, hidle] at ha
  have hnew : ∀ op r, (i, op, r) ∉ order := by
    intro op r hmem
    obtain ⟨p, hp, -⟩ := (h.entries i op r).mp hmem
    cases hfree.symm.trans hp
  rw [← List.append_nil order]
  refine h.move ⟨h.invariant.1, fun j => ?_⟩ (q.meets lifetime) ?_ hsingle ?_ ?_
    (fun _ hmem => absurd hmem List.not_mem_nil) ?_ (fun _ _ _ => Iff.rfl)
    (fun _ hv => by cases hv)
  · by_cases hj : j = i
    · subst hj
      rw [Config.set_procs_self, Function.update_self]
      exact ha.start q _
    · rw [Config.set_procs_of_ne _ hj, Function.update_of_ne hj]
      exact h.invariant.2 j
  · rintro rest ⟨⟩
    exact issues_single lifetime hsingle
  · rw [List.append_nil]
    exact h.serial
  · rw [List.append_nil]
    exact h.once
  · intro op r
    rw [List.append_nil]
    refine ⟨fun hmem => absurd hmem (hnew op r), ?_⟩
    rintro ⟨-, htook⟩
    cases r with
    | ok out => exact absurd htook (ha.fresh rfl out)
    | error e => cases htook

/-- Process `i` moves, and nothing takes effect. -/
theorem stays (h : CredentialOrder uni isHash lifetime first cfg order g) {i : ℕ}
    {p p' : AccountProcess} {w : Db} {g' : AccountGhost} (hp : cfg.procs i = some p)
    (hrequest : p'.request = p.request)
    (hinvariant : RelyGuarantee.Invariant Indexed (AccountAsserts isHash) (cfg.set i p' w)
      (Function.update g i g'))
    (hagrees : Process.Agrees (accounting uni isHash)
      (fun (q : AccountRequest) r (g : AccountGhost) => g.request = some q ∧ g.Ends lifetime r)
      AccountGhost.idle (some p') g')
    (hissues : ∀ rest, p'.rest = some rest → rest.Issues CredentialCommand)
    (hmap : accounts isHash w = accounts isHash cfg.world) (hlog : w.log = cfg.world.log)
    (hverdict : g'.verdict = (g i).verdict)
    (hdecided : (g i).decided = true → g'.decided = true) :
    CredentialOrder uni isHash lifetime first (cfg.set i p' w) order (Function.update g i g') := by
  rw [← List.append_nil order]
  refine h.move hinvariant hagrees hissues (hrequest ▸ h.single i p hp) ?_ ?_
    (fun _ hmem => absurd hmem List.not_mem_nil) ?_ (fun _ _ _ => by rw [hlog]) ?_
  · rw [List.append_nil, hmap]
    exact h.serial
  · rw [List.append_nil]
    exact h.once
  · intro op r
    -- nothing it took has changed
    have htook : g'.Took w i r ↔ (g i).Took cfg.world i r := by
      cases r with
      | ok out =>
        show (i, out) ∈ w.log ↔ (i, out) ∈ cfg.world.log
        rw [hlog]
      | error e =>
        show g'.verdict = some e ↔ (g i).verdict = some e
        rw [hverdict]
    rw [List.append_nil, h.entries, hp, htook, hrequest]
    refine ⟨?_, fun hright => ⟨_, rfl, hright⟩⟩
    rintro ⟨p₁, hp₁, hright⟩
    obtain rfl := Option.some_inj.mp hp₁
    exact hright
  · intro e hv
    obtain ⟨hold, hnone⟩ := h.verdicts i e (hverdict ▸ hv)
    exact ⟨hdecided hold, fun out hmem => hnone out (hlog ▸ hmem)⟩

/-- Process `i` moves, and its use case takes effect. -/
theorem takes (h : CredentialOrder uni isHash lifetime first cfg order g) {i : ℕ}
    {p p' : AccountProcess} {w : Db} {g' : AccountGhost} {op : AccountOp}
    {result : Except Exn Outcome} (hp : cfg.procs i = some p) (hrequest : p'.request = p.request)
    (hop : p.request.op = some op)
    (hinvariant : RelyGuarantee.Invariant Indexed (AccountAsserts isHash) (cfg.set i p' w)
      (Function.update g i g'))
    (hagrees : Process.Agrees (accounting uni isHash)
      (fun (q : AccountRequest) r (g : AccountGhost) => g.request = some q ∧ g.Ends lifetime r)
      AccountGhost.idle (some p') g')
    (hissues : ∀ rest, p'.rest = some rest → rest.Issues CredentialCommand)
    (hfresh : (g i).decided = false) (hdecided : g'.decided = true)
    (hatomic : Atomically uni op (accounts isHash cfg.world) result (accounts isHash w))
    (hresult : (∃ out, result = .ok out ∧ w.log = (i, out) :: cfg.world.log ∧
        g'.verdict = (g i).verdict) ∨
      ∃ e, result = .error e ∧ w.log = cfg.world.log ∧ g'.verdict = some e) :
    CredentialOrder uni isHash lifetime first (cfg.set i p' w) (order ++ [(i, op, result)])
      (Function.update g i g') := by
  obtain ⟨hnolog, hnoverdict, hnew⟩ := h.undecided hp hfresh
  refine h.move hinvariant hagrees hissues (hrequest ▸ h.single i p hp) (h.serial.snoc hatomic)
    ?_ ?_ ?_ ?_ ?_
  · rw [List.map_append, List.map_singleton]
    refine List.nodup_append.mpr ⟨h.once, List.nodup_singleton i, ?_⟩
    rintro j hj i' hi' rfl
    rw [List.mem_singleton.mp hi'] at hj
    exact hnew hj
  · intro entry hmem
    rw [List.mem_singleton.mp hmem]
  · intro op' r
    have hmem : (i, op', r) ∈ order ++ [(i, op, result)] ↔ op' = op ∧ r = result := by
      rw [List.mem_append, List.mem_singleton, Prod.mk.injEq, Prod.mk.injEq]
      constructor
      · rintro (hold | ⟨-, hsame⟩)
        · exact absurd (List.mem_map.mpr ⟨_, hold, rfl⟩) hnew
        · exact hsame
      · exact fun hsame => .inr ⟨rfl, hsame⟩
    rw [hmem, hrequest, hop, Option.some_inj, eq_comm]
    refine and_congr_right fun _ => ?_
    -- what the process took before this is nothing
    obtain ⟨out, rfl, hlog, hverdict⟩ | ⟨e, rfl, hlog, hverdict⟩ := hresult
    · cases r with
      | ok out' =>
        show _ ↔ (i, out') ∈ w.log
        rw [hlog, List.mem_cons, Prod.mk.injEq, Except.ok.injEq]
        exact ⟨fun heq => .inl ⟨rfl, heq⟩, fun hor => (hor.resolve_right (hnolog out')).2⟩
      | error e =>
        show _ ↔ g'.verdict = some e
        rw [hverdict, hnoverdict]
        exact ⟨(fun heq => by cases heq), fun heq => by cases heq⟩
    · cases r with
      | ok out' =>
        show _ ↔ (i, out') ∈ w.log
        rw [hlog]
        exact ⟨(fun heq => by cases heq), fun hold => absurd hold (hnolog out')⟩
      | error e' =>
        show _ ↔ g'.verdict = some e'
        rw [hverdict, Option.some_inj, Except.error.injEq, eq_comm]
  · intro j out hj
    obtain ⟨out', rfl, hlog, -⟩ | ⟨e, rfl, hlog, -⟩ := hresult
    · rw [hlog, List.mem_cons, Prod.mk.injEq]
      exact or_iff_right fun heq => hj heq.1
    · rw [hlog]
  · intro e hv
    obtain ⟨out', rfl, hlog, hverdict⟩ | ⟨e', rfl, hlog, -⟩ := hresult
    · cases hnoverdict.symm.trans (hverdict.symm.trans hv)
    · exact ⟨hdecided, fun out hmem => hnolog out (hlog ▸ hmem)⟩

/-- A process that dies leaves what has taken effect. -/
theorem crash (h : CredentialOrder uni isHash lifetime first cfg order g) {i : ℕ}
    {q : AccountRequest} {calls : List ((c : Command) × Except Exn c.Reply)}
    {rest : Option (Tx AccountResponse)} (hp : cfg.procs i = some ⟨q, calls, rest⟩) :
    CredentialOrder uni isHash lifetime first (cfg.set i ⟨q, calls, none⟩ (cfg.world.release i))
      order (Function.update g i { g i with effect := .over }) := by
  have ha := h.invariant.2 i
  rw [hp] at ha
  obtain ⟨hrel, hcrash⟩ := ha.crash
  refine h.stays hp rfl ?_ trivial (fun _ hr => by cases hr)
    (accounts_of_row_eq fun k => World.release_row _ _ k) rfl rfl id
  exact ⟨h.invariant.1.of_row_eq fun _ => World.release_row _ _ _,
    (account_relyGuarantee uni isHash lifetime fun _ _ => True).asserts_set h.invariant hrel
      hcrash⟩

/-- **A statement** lets at most its own use case take effect. -/
theorem act (h : CredentialOrder uni isHash lifetime first cfg order g)
    (hapart : HashesApart isHash) (hfreshIds : FreshIds cfg) {i : ℕ} {q : AccountRequest}
    {calls : List ((c : Command) × Except Exn c.Reply)} {c : Command}
    {k : Except Exn c.Reply → Tx AccountResponse} {x : Choice Fault Decision}
    {r : Except Exn c.Reply} {w : Db}
    (hp : cfg.procs i = some ⟨q, calls, some (.call c k)⟩)
    (he : exec Fault.exn (outside isHash) cfg.world i c x = some (r, w)) :
    ∃ g' new, CredentialOrder uni isHash lifetime first
        (cfg.set i ⟨q, ⟨c, r⟩ :: calls, some (k r)⟩ w) (order ++ new) (Function.update g i g') ∧
      (new = [] ∨ ∃ op result, new = [(i, op, result)]) := by
  have hsingle : q.single = true := h.single i _ hp
  obtain ⟨op, hop⟩ : ∃ op, q.op = some op := by
    cases q with
    | register email password => exact ⟨_, rfl⟩
    | authenticate email password => exact ⟨_, rfl⟩
    | changePassword => exact ⟨_, rfl⟩
    | _ => cases hsingle
  have ha := h.invariant.2 i
  have hagrees := h.agrees i
  have hissues := h.issues i q calls _ hp
  rw [hp] at ha hagrees
  obtain ⟨hkind, hissued⟩ := hissues
  obtain ⟨hguard, hmeets⟩ := hagrees
  obtain ⟨hreply, hkeeps⟩ := (account_relyGuarantee uni isHash lifetime
    fun _ _ => True).sound.act h.invariant hp hguard he hfreshIds
  obtain ⟨g', hdoes, hrest⟩ := hmeets r hreply
  have hrestIssues : ∀ rest, some (k r) = some rest → rest.Issues CredentialCommand := by
    rintro rest ⟨⟩
    obtain ⟨_, -, hmeets'⟩ := hissued r trivial
    exact hmeets'
  -- a decision is not taken back
  have hkept : (g i).decided = true → g'.decided = true := fun hold =>
    Bool.eq_true_of_not_eq_false fun hnew => by
      cases hold.symm.trans (hdoes.follows.decided hnew).1
  obtain ⟨hmap, hlog, hverdict⟩ | ⟨result, hfresh, hdecided, hatomic, hresult⟩ :=
    credential_effect hapart hsingle hop h.invariant.1 ha hguard hkind hreply hdoes he
  · refine ⟨g', [], ?_, .inl rfl⟩
    rw [List.append_nil]
    exact h.stays hp rfl (hkeeps g' hdoes) hrest hrestIssues hmap hlog hverdict hkept
  · exact ⟨g', [(i, op, result)], h.takes hp rfl hop (hkeeps g' hdoes) hrest hrestIssues hfresh
      hdecided hatomic hresult, .inr ⟨op, result, rfl⟩⟩

end CredentialOrder

namespace AccountRun

variable {uni : Unicode} {isHash : String → String → Bool} {lifetime : Duration}

/-- Runs of the three use cases, each in one transaction. -/
abbrev OfUseCases (uni : Unicode) (isHash : String → String → Bool) (lifetime : Duration) : Type :=
  AccountRun uni isHash lifetime fun _ q => q.single = true

/-- Along a run the use cases that have taken effect have an order. -/
theorem exists_order (run : OfUseCases uni isHash lifetime) (hapart : HashesApart isHash) (n : ℕ) :
    ∃ order, (∃ g, CredentialOrder uni isHash lifetime (accounts isHash (run.state 0).world)
        (run.state n) order g) ∧
      order.Pairwise fun a b => run.toRun.RealTime a.1 b.1 := by
  refine Run.linearizes (J := fun cfg order => ∃ g, CredentialOrder uni isHash lifetime
    (accounts isHash (run.state 0).world) cfg order g) ⟨fun _ => .idle, ?_⟩ ?_ ?_ n
  · refine ⟨⟨run.indexed, fun i => ?_⟩, fun i => ?_, fun i q calls rest hp => ?_, fun i p hp => ?_,
      .nil, List.nodup_nil, fun i op r => ?_, fun i e hv => by cases hv⟩
    · rw [run.empty i]
      exact .idle (fun k => by rw [run.unlocked k]; exact (Option.some_ne_none i).symm)
        fun out => by rw [run.unlogged]; exact List.not_mem_nil
    · rw [run.empty i]
      rfl
    · cases (run.empty i).symm.trans hp
    · cases (run.empty i).symm.trans hp
    · refine ⟨fun hmem => absurd hmem List.not_mem_nil, ?_⟩
      rintro ⟨p, hp, -⟩
      cases (run.empty i).symm.trans hp
  · rintro cfg order ⟨g, h⟩ ⟨i, op, r⟩ hentry
    obtain ⟨p, hp, -⟩ := (h.entries i op r).mp hentry
    rw [hp]
    exact Option.some_ne_none p
  -- a step takes effect at most once, and its entry comes last
  · rintro n order hs ⟨g, h⟩
    have hfresh := run.freshIds (run.invariant n).2
    generalize run.state n = cfg at hs h hfresh
    generalize run.state (n + 1) = cfg' at hs
    cases hs with
    | start free may => exact .inl ⟨_, h.start free may⟩
    | crash runs => exact .inl ⟨_, h.crash runs⟩
    | act runs does =>
      obtain ⟨g', new, hnew, rfl | ⟨op, result, rfl⟩⟩ := h.act hapart hfresh runs does
      · rw [List.append_nil] at hnew
        exact .inl ⟨_, hnew⟩
      · exact .inr ⟨_, op, result, _, runs, ⟨_, _, rfl⟩, _, hnew⟩

/-- An order in which the use cases could have been run one at a time.  It has each of them at
most once; it has all that have committed, returned, or raised but for a fault, with these
results; and it has none behind one that arrived only after its end. -/
structure Linearizes (run : OfUseCases uni isHash lifetime) (n : ℕ)
    (order : List (ℕ × AccountOp × Except Exn Outcome)) : Prop where
  serial : Serial (Atomically uni) (accounts isHash (run.state 0).world) order
    (accounts isHash (run.state n).world)
  once : (order.map Prod.fst).Nodup
  requested : ∀ i op r, (i, op, r) ∈ order →
    ∃ p, (run.state n).procs i = some p ∧ p.request.op = some op
  committed : ∀ i out, (i, out) ∈ (run.state n).world.log → ∃ op, (i, op, .ok out) ∈ order
  returned : ∀ i q calls out,
    (run.state n).procs i = some ⟨q, calls, some (.ret (.outcome out))⟩ →
    ∃ op, (i, op, .ok out) ∈ order
  raised : ∀ i q calls e, (run.state n).procs i = some ⟨q, calls, some (.raise e)⟩ →
    e.isFault = true ∨ ∃ op, (i, op, .error e) ∈ order
  realTime : order.Pairwise fun a b => run.toRun.RealTime a.1 b.1

/-- **The credential subsystem is a map**, whatever the interleaving. -/
theorem linearizable (run : OfUseCases uni isHash lifetime) (hapart : HashesApart isHash) (n : ℕ) :
    ∃ order, run.Linearizes n order := by
  obtain ⟨order, ⟨g, h⟩, hrealTime⟩ := run.exists_order hapart n
  -- the requests of the run are use cases, so each has an operation on the map
  have hop : ∀ i p, (run.state n).procs i = some p → ∃ op, p.request.op = some op := by
    intro i p hp
    have hsingle := h.single i p hp
    rcases hq : p.request with _ | _ | _ | _ | _ | _ | _ | _
    case register => exact ⟨_, rfl⟩
    case authenticate => exact ⟨_, rfl⟩
    case changePassword => exact ⟨_, rfl⟩
    all_goals
      rw [hq] at hsingle
      cases hsingle
  have hlog : ∀ i out p, (run.state n).procs i = some p → (i, out) ∈ (run.state n).world.log →
      ∃ op, (i, op, .ok out) ∈ order := by
    intro i out p hp hmem
    obtain ⟨op, hop⟩ := hop i p hp
    exact ⟨op, (h.entries i op (.ok out)).mpr ⟨p, hp, hop, hmem⟩⟩
  refine ⟨order, h.serial, h.once, fun i op r hentry => ?_, fun i out hmem => ?_,
    fun i q calls out hp => ?_, fun i q calls e hp => ?_, hrealTime⟩
  · obtain ⟨p, hp, hop, -⟩ := (h.entries i op r).mp hentry
    exact ⟨p, hp, hop⟩
  · rcases hp : (run.state n).procs i with _ | p
    · have ha := h.invariant.2 i
      rw [hp] at ha
      exact absurd hmem (ha.fresh rfl out)
    · exact hlog i out p hp hmem
  · have hagrees := h.agrees i
    have ha := h.invariant.2 i
    rw [hp] at hagrees ha
    exact hlog i out _ hp (ha.reported out hagrees.2)
  · have hagrees := h.agrees i
    rw [hp] at hagrees
    obtain ⟨hrequest, hsettled⟩ := hagrees
    obtain ⟨op, hop⟩ := hop i _ hp
    obtain hfault | hverdict := hsettled op ⟨q, hrequest, h.single i _ hp, hop⟩
    · exact .inl hfault
    · exact .inr ⟨op, (h.entries i op (.error e)).mpr ⟨_, hp, hop, hverdict⟩⟩

end AccountRun

/-! ### A registration and a login -/

theorem saltedHash_apart : HashesApart saltedHash := by
  -- the salt is of the hash, so the passwords behind it agree
  have hsalt : ∀ {salt salt' : String} {password password' : String},
      salt.toList.length = salt'.toList.length → salt ++ password = salt' ++ password' →
        password = password' := by
    intro salt salt' password password' hlength h
    have hlist := congrArg String.toList h
    rw [String.toList_append, String.toList_append] at hlist
    exact String.toList_inj.mp (List.append_inj_right hlist hlength)
  intro password password' passwordHash h h'
  rw [saltedHash, Bool.or_eq_true, beq_iff_eq, beq_iff_eq] at h h'
  rcases h with rfl | rfl <;> rcases h' with h' | h' <;> exact hsalt (by rfl) h'

/-- Two requests register one email, with different passwords. -/
def registersTwice : List (Label AccountRequest (Choice Fault Decision)) :=
  [.start 0 (.register "ada@example.org" "correct horse"),
    .start 1 (.register "ada@example.org" "battery staple"),
    .act 0 (.ext (.time 0)), .act 1 (.ext (.time 0)),
    .act 0 (.ext (.hashed "1$correct horse")), .act 1 (.ext (.hashed "2$battery staple")),
    .act 0 .ok, .act 1 .ok, .act 0 .ok, .act 0 .ok, .act 0 .ok, .act 1 .ok, .act 1 .ok]

theorem single_registersTwice :
    ∀ q ∈ registersTwice.filterMap Label.arrival, q.single = true := by
  intro q hq
  rcases List.mem_cons.mp hq with rfl | hq
  · rfl
  · rw [List.mem_singleton.mp hq]
    rfl

/-- The run in which they do so in an empty database. -/
def credentialTrace : AccountRun.OfUseCases plainText saltedHash 1000 where
  toDbRun := traceRun _ _ (fun q => q.single = true) emptyDb registersTwice emptyDb_unlocked
    emptyDb_unlogged single_registersTwice
  indexed := (accountTrace []).indexed
  below := (accountTrace []).below

theorem log_credentialTrace : (credentialTrace.state 13).world.log =
    [(0, .registered ⟨1, "ada@example.org", 0⟩)] := rfl

theorem raised_credentialTrace :
    ∃ q calls, (credentialTrace.state 13).procs 1 = some ⟨q, calls,
      some (.raise (.duplicateEmailError "That email is already registered."))⟩ := ⟨_, _, rfl⟩

/-- One of them is first there, and the other finds the email taken. -/
theorem AccountRun.linearizable_registersTwice :
    ∃ order, credentialTrace.Linearizes 13 order ∧
      (∃ op, (0, op, .ok (.registered ⟨1, "ada@example.org", 0⟩)) ∈ order) ∧
      ∃ op, (1, op, .error (.duplicateEmailError "That email is already registered.")) ∈ order := by
  obtain ⟨order, h⟩ := AccountRun.linearizable credentialTrace saltedHash_apart 13
  obtain ⟨q, calls, hraised⟩ := raised_credentialTrace
  refine ⟨order, h, ?_, ?_⟩
  · exact h.committed 0 _ (by rw [log_credentialTrace]; exact List.mem_singleton_self _)
  · exact (h.raised 1 q calls _ hraised).resolve_left Bool.false_ne_true

end Lsstack
