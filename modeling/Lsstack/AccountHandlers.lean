/-
The handlers of the account side and the seed keep to the protocol.

* `meets_revalidateSession`, `meets_issueSession` — sessions;
* **`meets_registerAction`**, **`meets_loginAction`**,
  **`meets_changePasswordAction`**, **`meets_profile`** — the handlers;
* **`meets_seedOperation`** — the seed, whose tasks are invisible here;
* **`AccountRequest.meets`** — every request, and what it ends with: the claims
  it answers belong to its last committed result.
-/
import Lsstack.AccountProtocol

namespace Lsstack

open Concurrency

section Rules

variable {uni : Unicode} {isHash : String → String → Bool} {g : AccountGhost}

/-! ### Sessions -/

/-- A revalidated session is one of the user the claims name. -/
theorem meets_revalidateSession {claims : SessionClaims}
    {Q : Except Exn UserSession → AccountGhost → Prop} (heffect : g.effect = .nothing)
    (hok : ∀ session g', g.Same g' → g'.effect = .nothing → session.userId = claims.userId →
      Q (.ok session) g')
    (herror : ∀ e g', g.Same g' → g'.effect = .nothing → Q (.error e) g') :
    (revalidateSession claims).Meets (accounting uni isHash) g Q := by
  unfold revalidateSession getUserSession UserRepository.getById
  refine Program.meets_bind.mpr (accounting_now (fun t => ?_) fun e he =>
    herror e g (.refl g) heffect)
  rw [Program.onOk_ok]
  split
  · exact herror _ _ ⟨rfl, rfl⟩ heffect
  refine Program.meets_bind.mpr (Program.meets_bind.mpr (Program.meets_bind.mpr
    (Program.meets_perform.mpr ⟨.inl heffect, fun r hr => ⟨_, .inl rfl, ?_⟩⟩)))
  rcases r with e | _ | row
  · exact herror _ _ ⟨rfl, rfl⟩ heffect
  · exact herror _ _ ⟨rfl, rfl⟩ heffect
  · simp only [Program.onOk_ok, Program.pure_eq, Program.meets_ret, Option.map_some,
      UserModel.detach]
    split
    · exact herror _ _ ⟨rfl, rfl⟩ heffect
    · exact hok _ _ ⟨rfl, rfl⟩ heffect rfl

/-- Claims are issued at the time just read, for the configured lifetime. -/
theorem meets_issueSession {auth : AuthResult} {lifetime : Duration}
    {Q : Except Exn SessionClaims → AccountGhost → Prop}
    (hok : ∀ t, Q (.ok ⟨auth.userId, auth.sessionVersion, t, t + lifetime⟩)
      { g with clock := some t })
    (herror : ∀ e, Q (.error e) g) :
    (issueSession auth lifetime).Meets (accounting uni isHash) g Q := by
  unfold issueSession
  split
  · exact herror _
  · exact Program.meets_bind.mpr (accounting_now hok fun e _ => herror e)

/-! ### Handlers -/

namespace AccountGhost

/-- A handler of `q` is between two transactions. -/
structure Between (q : AccountRequest) (g : AccountGhost) : Prop where
  request : g.request = some q
  effect : g.effect = .nothing

/-- The claims belong to the last committed result and the last clock reading. -/
structure Grants (lifetime : Duration) (g : AccountGhost) (claims : SessionClaims) : Prop where
  credential : ∃ out, g.reported = some out ∧
    out.credential = some (claims.userId, claims.sessionVersion)
  issued : g.clock = some claims.issuedAt
  expires : claims.expiresAt = claims.issuedAt + lifetime

theorem not_runs {q : AccountRequest} {op : AccountOp} (hq : g.request = some q)
    (hsingle : q.single = false) : ¬ g.Runs op := by
  rintro ⟨q', hq', hsingle', -⟩
  obtain rfl := Option.some_inj.mp (hq.symm.trans hq')
  exact absurd (hsingle.symm.trans hsingle') Bool.false_ne_true

end AccountGhost

section Handlers

variable {q : AccountRequest}

/-- A transaction of a handler. -/
theorem meets_handlerTransaction {α : Type} {outcome : α → Outcome} {operation : Tx α}
    {Q : Except Exn α → AccountGhost → Prop} (hsingle : q.single = false)
    (hop : operation.Meets (accounting uni isHash) g fun r g' => g'.request = some q ∧
      ∀ a, r = .ok a → g'.Written uni isHash q (outcome a))
    (hok : ∀ a g', g'.Between q → g'.reported = some (outcome a) → Q (.ok a) g')
    (herror : ∀ e g', g'.Between q → Q (.error e) g') :
    (transactionRunner outcome operation).Meets (accounting uni isHash) g Q := by
  refine meets_transactionRunner.mpr (hop.mono fun r g' h => ?_)
  obtain ⟨hq, hwritten⟩ := h
  refine settled_accounting (fun a ha => ?_)
    (fun e _ op hop => absurd hop (AccountGhost.not_runs hq hsingle))
    fun e g'' hsame heffect _ => herror e g'' ⟨hsame.request.trans hq, heffect⟩
  exact ⟨⟨q, hq, hwritten a ha, by simp [hsingle]⟩, hok a _ ⟨hq, rfl⟩ rfl⟩

theorem meets_currentUser {cookie : Option SessionClaims}
    {Q : Except Exn (Option CurrentUser) → AccountGhost → Prop} (hsingle : q.single = false)
    (hg : g.Between q) (hok : ∀ user g', g'.Between q → Q (.ok user) g')
    (herror : ∀ e g', g'.Between q → Q (.error e) g') :
    (currentUser cookie).Meets (accounting uni isHash) g Q := by
  unfold currentUser
  rcases cookie with _ | claims
  · exact hok none g hg
  · refine Program.meets_handle.mpr (Program.meets_bind.mpr (meets_handlerTransaction hsingle
      (Program.meets_bind.mpr (meets_revalidateSession hg.effect
        (fun session g' hsame heffect _ => ?_) fun e g' hsame _ => ?_))
      (fun user g' hg' _ => hok _ g' hg') fun e g' hg' => ?_))
    · refine ⟨hsame.request.trans hg.request, fun a _ => ?_⟩
      exact .inl heffect
    · exact ⟨hsame.request.trans hg.request, fun a ha => nomatch ha⟩
    · rw [Program.onOk_error, Program.onError_error]
      split
      · exact hok none g' hg'
      · exact herror _ g' hg'

theorem meets_runAuthenticated {α : Type} {cookie : Option SessionClaims}
    {outcome : CurrentUser × α → Outcome} {operation : CurrentUser → Tx α}
    {Q : Except Exn (Option (CurrentUser × α)) → AccountGhost → Prop}
    (hsingle : q.single = false) (hg : g.Between q)
    (hop : ∀ claims user g', cookie = some claims → user.id = claims.userId → g'.Between q →
      (operation user).Meets (accounting uni isHash) g' fun r g'' => g''.request = some q ∧
        ∀ a, r = .ok a → g''.Written uni isHash q (outcome (user, a)))
    (hok : ∀ result g', g'.Between q →
      (∀ value, result = some value → g'.reported = some (outcome value)) → Q (.ok result) g')
    (herror : ∀ e g', g'.Between q → Q (.error e) g') :
    (runAuthenticated cookie outcome operation).Meets (accounting uni isHash) g Q := by
  unfold runAuthenticated
  rcases cookie with _ | claims
  -- without a cookie nothing is read
  · exact hok none g hg fun _ h => nomatch h
  · refine Program.meets_handle.mpr (Program.meets_bind.mpr (meets_handlerTransaction hsingle
      (Program.meets_bind.mpr (meets_revalidateSession hg.effect
        (fun session g' hsame heffect hid => ?_) fun e g' hsame _ => ?_))
      (fun value g' hg' hreported => ?_) fun e g' hg' => ?_))
    -- the session is valid, and the operation is run for its user
    · refine Program.meets_bind.mpr ((hop claims _ g' rfl hid
        ⟨hsame.request.trans hg.request, heffect⟩).mono fun r g'' h => ?_)
      rcases r with e | a
      · exact ⟨h.1, fun a ha => nomatch ha⟩
      · refine ⟨h.1, fun value hvalue => ?_⟩
        cases hvalue
        exact h.2 a rfl
    · exact ⟨hsame.request.trans hg.request, fun a ha => nomatch ha⟩
    · refine hok _ g' hg' fun value' h => ?_
      cases h
      exact hreported
    -- an invalid session is caught, and the visitor has none
    · rw [Program.onOk_error, Program.onError_error]
      split
      · exact hok none g' hg' fun _ h => nomatch h
      · exact herror _ g' hg'

/-- What a handler of `q` leaves: the claims it answers have been granted. -/
def AccountGhost.Answered (lifetime : Duration) (q : AccountRequest) (r : Except Exn Page)
    (g : AccountGhost) : Prop :=
  g.request = some q ∧ ∀ page claims, r = .ok page →
    (AccountResponse.page page).session = some claims → g.Grants lifetime claims

theorem answered_error {lifetime : Duration} {e : Exn} {g : AccountGhost}
    (hg : g.request = some q) : g.Answered lifetime q (.error e) :=
  ⟨hg, fun _ _ h => nomatch h⟩

/-- A page without a session grants nothing. -/
theorem answered_page {lifetime : Duration} {page : Page} {g : AccountGhost}
    (hg : g.request = some q) (hpage : (AccountResponse.page page).session = none) :
    g.Answered lifetime q (.ok page) := by
  refine ⟨hg, fun page' claims h hclaims => ?_⟩
  cases h
  rw [hpage] at hclaims
  cases hclaims

/-- Claims issued for a committed result are granted. -/
theorem meets_issuedPage {auth : AuthResult} {lifetime : Duration} {path : String} {out : Outcome}
    (hg : g.Between q) (hreported : g.reported = some out)
    (hcredential : out.credential = some (auth.userId, auth.sessionVersion)) :
    (do let claims ← issueSession auth lifetime
        return Page.redirect path (some claims)).Meets (accounting uni isHash) g
      (AccountGhost.Answered lifetime q) := by
  refine Program.meets_bind.mpr (meets_issueSession (fun t => ?_) fun e =>
    answered_error hg.request)
  refine ⟨hg.request, fun page claims hpage hclaims => ?_⟩
  cases hpage
  cases hclaims
  exact ⟨⟨out, hreported, hcredential⟩, rfl, rfl⟩

theorem meets_registerAction {lifetime : Duration} {cookie : Option SessionClaims}
    {email password passwordConfirmation : String}
    (hq : q = .registerAction cookie email password passwordConfirmation) (hg : g.Between q) :
    (registerAction uni lifetime cookie email password passwordConfirmation).Meets
      (accounting uni isHash) g (AccountGhost.Answered lifetime q) := by
  have hsingle : q.single = false := by rw [hq]; rfl
  unfold registerAction
  refine Program.meets_bind.mpr (meets_currentUser hsingle hg (fun user g₁ hg₁ => ?_)
    fun e g₁ hg₁ => answered_error hg₁.request)
  rcases user with _ | user
  · rw [Program.onOk_ok]
    -- a user who is logged in is sent away
    dsimp only
    split
    · exact answered_page hg₁.request rfl
    refine Program.meets_bind.mpr (Program.meets_handle.mpr (Program.meets_bind.mpr
      (meets_handlerTransaction hsingle ?_ (fun auth g₂ hg₂ hreported => ?_) fun e g₂ hg₂ => ?_)))
    · refine meets_register hg₁.effect (fun op hop => ?_)
        (fun id row g' hsame _ heffect hversion hemail hpassword hhash => ?_) fun e g' hsame _ => ?_
      · exact absurd hop (AccountGhost.not_runs hg₁.request hsingle)
      · refine ⟨hsame.request.trans hg₁.request, fun a ha => ?_⟩
        cases ha
        exact ⟨strip email, password, row, by rw [hq]; rfl, heffect, rfl, hversion, hemail,
          hpassword, hhash⟩
      · exact ⟨hsame.request.trans hg₁.request, fun a ha => nomatch ha⟩
    -- the session is issued in the page, after the commit
    · exact meets_issuedPage hg₂ hreported rfl
    · rw [Program.onOk_error, Program.onError_error]
      split
      · exact answered_page hg₂.request rfl
      · exact answered_page hg₂.request rfl
      · exact answered_error hg₂.request
  · exact answered_page hg₁.request rfl

theorem meets_loginAction {lifetime : Duration} {cookie : Option SessionClaims}
    {email password : String} (hq : q = .loginAction cookie email password) (hg : g.Between q) :
    (loginAction uni lifetime cookie email password).Meets
      (accounting uni isHash) g (AccountGhost.Answered lifetime q) := by
  have hsingle : q.single = false := by rw [hq]; rfl
  unfold loginAction
  refine Program.meets_bind.mpr (meets_currentUser hsingle hg (fun user g₁ hg₁ => ?_)
    fun e g₁ hg₁ => answered_error hg₁.request)
  rcases user with _ | user
  · refine Program.meets_bind.mpr (Program.meets_handle.mpr (Program.meets_bind.mpr
      (meets_handlerTransaction hsingle ?_ (fun auth g₂ hg₂ hreported => ?_) fun e g₂ hg₂ => ?_)))
    · refine meets_authenticate hg₁.effect (fun op hop => ?_)
        (fun id row g' hsame _ heffect hemail hhash => ?_) fun e g' hsame _ => ?_
      · exact absurd hop (AccountGhost.not_runs hg₁.request hsingle)
      · refine ⟨hsame.request.trans hg₁.request, fun a ha => ?_⟩
        cases ha
        exact ⟨email, password, row, by rw [hq]; rfl, heffect, rfl, hemail, hhash⟩
      · exact ⟨hsame.request.trans hg₁.request, fun a ha => nomatch ha⟩
    · exact meets_issuedPage hg₂ hreported rfl
    · rw [Program.onOk_error, Program.onError_error]
      split
      · exact answered_page hg₂.request rfl
      · exact answered_page hg₂.request rfl
      · exact answered_error hg₂.request
  · exact answered_page hg₁.request rfl

theorem meets_changePasswordAction {lifetime : Duration} {cookie : Option SessionClaims}
    {currentPassword newPassword newPasswordConfirmation : String}
    (hq : q = .changePasswordAction cookie currentPassword newPassword newPasswordConfirmation)
    (hg : g.Between q) :
    (changePasswordAction uni lifetime cookie currentPassword newPassword
      newPasswordConfirmation).Meets (accounting uni isHash) g
        (AccountGhost.Answered lifetime q) := by
  have hsingle : q.single = false := by rw [hq]; rfl
  unfold changePasswordAction
  refine Program.meets_bind.mpr (meets_runAuthenticated hsingle hg
    (fun claims user g₁ hcookie hid hg₁ => ?_) (fun result g₁ hg₁ hreported => ?_)
    fun e g₁ hg₁ => answered_error hg₁.request)
  · unfold changePasswordOperation
    -- a form with errors is answered inside the transaction, without the lock
    split
    · refine ⟨hg₁.request, fun a ha => ?_⟩
      cases ha
      exact .inl hg₁.effect
    refine Program.meets_handle.mpr (Program.meets_bind.mpr (meets_changePassword hg₁.effect
      (fun op hop => ?_) (fun row passwordHash stamp g' hsame _ heffect hhash hconfirmed hpassword
        hhash' => ?_) fun e g' hsame heffect _ => ?_))
    · exact absurd hop (AccountGhost.not_runs hg₁.request hsingle)
    · refine ⟨hsame.request.trans hg₁.request, fun a ha => ?_⟩
      cases ha
      refine ⟨currentPassword, newPassword, newPasswordConfirmation, row, passwordHash, stamp, ?_,
        heffect, rfl, hhash, hconfirmed, hpassword, hhash'⟩
      rw [hq, AccountRequest.op, hcookie, hid]
      rfl
    -- an expected error is answered too, so its transaction commits the lock at most
    · have hvisited : e.isFault = false →
          g'.effect = .nothing ∨ ∃ id row, g'.effect = .locked id row := by
        intro he
        obtain h | ⟨row, h⟩ | h := heffect
        · exact .inl h
        · exact .inr ⟨user.id, row, h⟩
        · exact absurd (he.symm.trans h) Bool.false_ne_true
      rw [Program.onOk_error, Program.onError_error]
      split
      · refine ⟨hsame.request.trans hg₁.request, fun a ha => ?_⟩
        cases ha
        exact hvisited rfl
      · refine ⟨hsame.request.trans hg₁.request, fun a ha => ?_⟩
        cases ha
        exact hvisited rfl
      · exact ⟨hsame.request.trans hg₁.request, fun a ha => nomatch ha⟩
  · rcases result with _ | ⟨user, errors | error | version⟩
    · exact answered_page hg₁.request rfl
    · exact answered_page hg₁.request rfl
    · exact answered_page hg₁.request rfl
    · exact meets_issuedPage hg₁ (hreported _ rfl) rfl

theorem meets_profile {lifetime : Duration} {cookie : Option SessionClaims}
    (hq : q = .profile cookie) (hg : g.Between q) :
    (profile cookie).Meets (accounting uni isHash) g (AccountGhost.Answered lifetime q) := by
  have hsingle : q.single = false := by rw [hq]; rfl
  unfold profile
  refine Program.meets_bind.mpr
    (meets_runAuthenticated hsingle hg (fun claims user g₁ _ _ hg₁ => ?_)
    (fun result g₁ hg₁ _ => ?_) fun e g₁ hg₁ => answered_error hg₁.request)
  · exact ⟨hg₁.request, fun a _ => .inl hg₁.effect⟩
  · rcases result with _ | value
    · exact answered_page hg₁.request rfl
    · exact answered_page hg₁.request rfl

end Handlers

/-! ### The seed -/

/-- The statements that concern no user. -/
def Command.leavesUsers : Command → Bool
  | .select (.task _) _ => true
  | .scan _ _ => true
  | .update (.task _) _ _ => true
  | .insert (.task _) _ => true
  | .insert (.message _) _ => true
  | .nextval .tasks => true
  | .ext .now => true
  | .ext .serverNow => true
  | .ext .uuid4 => true
  | _ => false

/-- The protocol of the code that issues no other. -/
def taskSide : Protocol Command Command.Reply Exn Unit :=
  .automaton (fun _ c => c.leavesUsers = true) fun _ _ _ => ()

/-- The code issues no other. -/
structure OnTasks {α : Type} (p : Tx α) : Prop where
  meets : p.Meets taskSide () fun _ _ => True

theorem onTasks_ret {α : Type} (a : α) : OnTasks (.ret a) := ⟨trivial⟩

theorem onTasks_raise {α : Type} (e : Exn) : OnTasks (.raise e : Tx α) := ⟨trivial⟩

theorem onTasks_bind {α β : Type} {p : Tx α} {f : α → Tx β} (hp : OnTasks p)
    (hf : ∀ a, OnTasks (f a)) : OnTasks (p >>= f) := by
  refine ⟨Program.meets_bind.mpr (hp.meets.mono fun r _ _ => ?_)⟩
  rcases r with e | a
  · trivial
  · exact (hf a).meets

theorem onTasks_perform {c : Command} (hc : c.leavesUsers = true) : OnTasks (perform c) :=
  ⟨Program.meets_perform_automaton.mpr ⟨hc, fun _ => trivial⟩⟩

theorem onTasks_liftExcept {α : Type} (r : Except Exn α) : OnTasks (liftExcept r) :=
  ⟨meets_liftExcept.mpr trivial⟩

theorem onTasks_listOwned (userId : ℕ) : OnTasks (TaskRepository.listOwned userId) :=
  onTasks_bind (onTasks_perform rfl) fun _ => onTasks_ret _

theorem onTasks_add (task : Task) : OnTasks (TaskRepository.add task) := by
  unfold TaskRepository.add
  refine onTasks_bind (onTasks_perform rfl) fun id => ?_
  refine onTasks_bind (onTasks_perform rfl) fun inserted => ?_
  split
  · exact onTasks_raise _
  · exact onTasks_ret _

theorem onTasks_addMessage (message : OutboxMessage) :
    OnTasks (OutboxRepository.add message) := by
  unfold OutboxRepository.add
  refine onTasks_bind (onTasks_perform rfl) fun inserted => ?_
  split
  · exact onTasks_raise _
  · exact onTasks_ret _

theorem onTasks_createTask (userId : ℕ) (title : String) (description : Option String) :
    OnTasks (createTask userId title description) := by
  unfold createTask
  refine onTasks_bind (onTasks_perform rfl) fun now => ?_
  refine onTasks_bind (onTasks_liftExcept _) fun title => ?_
  refine onTasks_bind (onTasks_liftExcept _) fun description => ?_
  refine onTasks_bind (onTasks_add _) fun task => ?_
  refine onTasks_bind (onTasks_liftExcept _) fun result => ?_
  refine onTasks_bind (onTasks_perform rfl) fun outboxId => ?_
  exact onTasks_bind (onTasks_addMessage _) fun message => onTasks_ret _

theorem onTasks_flush (taskId : ℕ) (loaded assigned : TaskModel) :
    OnTasks (TaskModel.flush taskId loaded assigned) := by
  unfold TaskModel.flush
  split
  · exact onTasks_ret _
  · dsimp only
    split
    · refine onTasks_bind (onTasks_perform rfl) fun stamp => ?_
      refine onTasks_bind (onTasks_perform rfl) fun updated => ?_
      split
      · exact onTasks_raise _
      · exact onTasks_ret _
    · refine onTasks_bind (onTasks_ret _) fun stamp => ?_
      refine onTasks_bind (onTasks_perform rfl) fun updated => ?_
      split
      · exact onTasks_raise _
      · exact onTasks_ret _

theorem onTasks_update (task : Task) : OnTasks (TaskRepository.update task) := by
  unfold TaskRepository.update TaskRepository.ownedQuery
  split
  · exact onTasks_raise _
  refine onTasks_bind (onTasks_perform rfl) fun model => ?_
  split
  · exact onTasks_raise _
  · exact onTasks_bind (onTasks_flush _ _ _) fun model => onTasks_ret _

theorem onTasks_toggleTask (userId taskId : ℕ) : OnTasks (toggleTask userId taskId) := by
  have hget : OnTasks (TaskRepository.getOwned taskId userId) :=
    onTasks_bind (onTasks_perform rfl) fun _ => onTasks_ret _
  unfold toggleTask
  refine onTasks_bind hget fun task => ?_
  split
  · exact onTasks_raise _
  · refine onTasks_bind (onTasks_perform rfl) fun now => ?_
    exact onTasks_bind (onTasks_update _) fun updated => onTasks_liftExcept _

theorem onTasks_seedMissing (userId : ℕ) (existingTitles : List String)
    (samples : List (String × String × Bool)) (created : ℕ) :
    OnTasks (seedMissing userId existingTitles created samples) := by
  induction samples generalizing created with
  | nil => exact onTasks_ret _
  | cons sample rest ih =>
    unfold seedMissing
    split
    · exact ih created
    · refine onTasks_bind (onTasks_createTask _ _ _) fun task => ?_
      split
      · exact onTasks_bind (onTasks_toggleTask _ _) fun _ => ih _
      · exact ih _

/-- The same request, result and effect. -/
def AccountGhost.Unmoved (g : AccountGhost) (_ : Unit) (g' : AccountGhost) : Prop :=
  g.Same g' ∧ g'.effect = g.effect

/-- To the account side such code is invisible, but for its clock readings. -/
theorem taskSide_simulates : taskSide.Simulates (accounting uni isHash) g.Unmoved := by
  intro u g' c hrel hguard
  have hstay : ∀ r, g'.Moves isHash c r g' → ∃ g₁', (accounting uni isHash).step g' c r g₁' ∧
      g.Unmoved u g₁' := fun r h => ⟨g', .inl h, hrel⟩
  -- of the statements of a task only a reading of the clock moves the ghost
  cases c with
  | select k p =>
    cases k
    case task => exact ⟨trivial, fun r _ => ⟨trivial, fun _ _ => hstay r rfl⟩⟩
    all_goals cases hguard
  | scan p le => exact ⟨trivial, fun r _ => ⟨trivial, fun _ _ => hstay r rfl⟩⟩
  | lock k p => cases hguard
  | tryLock k p => cases hguard
  | update k p f =>
    cases k
    case task => exact ⟨trivial, fun r _ => ⟨trivial, fun _ _ => hstay r rfl⟩⟩
    all_goals cases hguard
  | insert k v =>
    cases k
    case task => exact ⟨trivial, fun r _ => ⟨trivial, fun _ _ => hstay r rfl⟩⟩
    case message => exact ⟨trivial, fun r _ => ⟨trivial, fun _ _ => hstay r rfl⟩⟩
    all_goals cases hguard
  | delete k p => cases hguard
  | nextval s =>
    cases s
    case tasks => exact ⟨trivial, fun r _ => ⟨trivial, fun _ _ => hstay r rfl⟩⟩
    cases hguard
  | commit out => cases hguard
  | rollback => cases hguard
  | ext x =>
    cases x
    case now =>
      refine ⟨trivial, fun r _ => ⟨trivial, fun _ _ => ?_⟩⟩
      rcases r with e | t
      · exact hstay _ rfl
      · exact ⟨_, .inl rfl, ⟨hrel.1.request, hrel.1.reported⟩, hrel.2⟩
    case serverNow => exact ⟨trivial, fun r _ => ⟨trivial, fun _ _ => hstay r rfl⟩⟩
    case uuid4 => exact ⟨trivial, fun r _ => ⟨trivial, fun _ _ => hstay r rfl⟩⟩
    all_goals cases hguard

theorem OnTasks.accounting {α : Type} {p : Tx α} (h : OnTasks p) :
    p.Meets (accounting uni isHash) g fun _ g' => g.Same g' ∧ g'.effect = g.effect :=
  (h.meets.transfer taskSide_simulates ⟨.refl g, rfl⟩).mono fun _ _ ⟨_, hg, _⟩ => hg

/-- **The user of the seed** is inserted, verified, or given the password. -/
theorem meets_seedUser {q : AccountRequest} {email password : String}
    {Q : Except Exn (ℕ × Bool × Bool) → AccountGhost → Prop} (hsingle : q.single = false)
    (hg : g.Between q)
    (hok : ∀ id created repaired g', g.Same g' → g'.Seeded (uni.casefold email) repaired →
      Q (.ok (id, created, repaired)) g')
    (herror : ∀ e g', g.Same g' → Q (.error e) g') :
    (seedUser uni email password).Meets (accounting uni isHash) g Q := by
  unfold seedUser
  refine Program.meets_bind.mpr (accounting_getByEmailForUpdate hg.effect (fun p => ?_)
    (fun id row hrow => ?_) fun e g' _ hsame => herror e g' hsame)
  · refine ⟨g, .inl rfl, Program.meets_bind.mpr (meets_register hg.effect (fun op hop => ?_)
      (fun id row g' hsame _ heffect hversion _ _ _ => ?_) fun e g' hsame _ => herror e g' hsame)⟩
    · exact absurd hop (AccountGhost.not_runs hg.request hsingle)
    · have hseeded : g'.Seeded (uni.casefold email) false := by
        unfold AccountGhost.Seeded
        rw [heffect]
        exact hversion
      exact hok id true false g' hsame hseeded
  -- the row is written, if at all, under its lock
  refine Program.meets_bind.mpr (accounting_verify (fun v hv hhash hreplacement => ?_)
    (fun v hv => ?_) fun e _ => herror e _ ⟨rfl, rfl⟩)
  · refine ⟨_, .inl rfl, ?_⟩
    simp only [Program.onOk_ok, hv, Bool.true_eq_false, if_false]
    rcases hr : v.replacementHash with _ | passwordHash
    · exact hok id false false _ ⟨rfl, rfl⟩ trivial
    · refine Program.meets_bind.mpr (accounting_now (fun t => ?_) fun e _ => herror e _ ⟨rfl, rfl⟩)
      refine Program.meets_bind.mpr (accounting_rehash rfl hhash (hreplacement _ hr) ?_
        (fun stamp => ?_) fun e _ => herror e _ ⟨rfl, rfl⟩)
      · exact hok id false false _ ⟨rfl, rfl⟩ trivial
      · exact hok id false false _ ⟨rfl, rfl⟩ trivial
  · refine ⟨_, .inl rfl, ?_⟩
    simp only [Program.onOk_ok, hv, if_true]
    refine Program.meets_bind.mpr (accounting_hash (fun passwordHash _ => ?_)
      fun e _ => herror e _ ⟨rfl, rfl⟩)
    refine Program.meets_bind.mpr (accounting_now (fun t => ?_) fun e _ => herror e _ ⟨rfl, rfl⟩)
    refine Program.meets_bind.mpr (accounting_replace rfl (fun stamp => ?_)
      fun e _ => herror e _ ⟨rfl, rfl⟩)
    exact hok id false true _ ⟨rfl, rfl⟩ hrow.symm

/-- **The seed** repairs its user and adds the missing tasks. -/
theorem meets_seedOperation {q : AccountRequest} {email password : String}
    (hsingle : q.single = false) (hop : q.op = none) (hg : g.Between q) :
    (seedOperation uni email password).Meets (accounting uni isHash) g fun r g' =>
      g'.request = some q ∧
        ∀ result, r = .ok result → g'.Written uni isHash q (.seeded result) := by
  unfold seedOperation
  refine Program.meets_bind.mpr (meets_seedUser hsingle hg
    (fun id created repaired g₁ hsame₁ hseeded => ?_)
    fun e g₁ hsame => ⟨hsame.request.trans hg.request, fun _ h => nomatch h⟩)
  have hrequest : ∀ {g₂}, g₁.Same g₂ → g₂.request = some q := fun hsame₂ =>
    (hsame₁.trans hsame₂).request.trans hg.request
  refine Program.meets_bind.mpr ((onTasks_listOwned id).accounting.mono fun r g₂ h₂ => ?_)
  rcases r with e | tasks
  · exact ⟨hrequest h₂.1, fun _ h => nomatch h⟩
  refine Program.meets_bind.mpr ((onTasks_seedMissing _ _ _ _).accounting.mono fun r g₃ h₃ => ?_)
  have hsame₃ := h₂.1.trans h₃.1
  rcases r with e | tasksCreated
  · exact ⟨hrequest hsame₃, fun _ h => nomatch h⟩
  refine ⟨hrequest hsame₃, fun result hresult => ?_⟩
  cases hresult
  unfold AccountGhost.Seeded at hseeded
  rw [← h₂.2, ← h₃.2] at hseeded
  exact ⟨hop, hseeded⟩

/-! ### Requests -/

/-- What a process ends with: its last result, the claims granted for it, or an
exception its transaction may raise. -/
def AccountGhost.Ends (lifetime : Duration) : Except Exn AccountResponse → AccountGhost → Prop
  | .ok (.outcome out), g => g.reported = some out
  | .ok response, g => ∀ claims, response.session = some claims → g.Grants lifetime claims
  | .error e, g => g.Settled e

/-- A single transaction answers the result it commits. -/
theorem meets_accountTransaction {α : Type} {outcome : α → Outcome} {operation : Tx α}
    {lifetime : Duration} {q : AccountRequest}
    (h : operation.Meets (accounting uni isHash) q.ghost fun r g => q.ghost.Same g ∧
      (∀ a, r = .ok a → g.Reports uni isHash (outcome a)) ∧ ∀ e, r = .error e → g.Fails uni e) :
    (accountTransaction outcome operation).Meets (accounting uni isHash) q.ghost fun r g =>
      g.request = some q ∧ g.Ends lifetime r := by
  refine Program.meets_bind.mpr (meets_transactionRunner.mpr (h.mono fun r g' hr => ?_))
  obtain ⟨hsame, hok, herror⟩ := hr
  refine settled_accounting (fun a ha => ⟨hok a ha, ?_⟩) herror fun e g'' hsame' _ hsettled => ?_
  · exact ⟨hsame.request, rfl⟩
  · exact ⟨(hsame.trans hsame').request, hsettled⟩

/-- A handler answers what it has been granted. -/
theorem meets_answerPage {handler : Tx Page} {lifetime : Duration} {q : AccountRequest}
    (hsingle : q.single = false)
    (h : handler.Meets (accounting uni isHash) q.ghost (AccountGhost.Answered lifetime q)) :
    (answerPage handler).Meets (accounting uni isHash) q.ghost fun r g =>
      g.request = some q ∧ g.Ends lifetime r := by
  refine Program.meets_bind.mpr (h.mono fun r g' hr => ?_)
  obtain ⟨hq, hanswered⟩ := hr
  rcases r with e | page
  · exact ⟨hq, fun op hop => absurd hop (AccountGhost.not_runs hq hsingle)⟩
  · exact ⟨hq, fun claims hclaims => hanswered page claims rfl hclaims⟩

/-- **Every request keeps to the protocol.** -/
theorem AccountRequest.meets (lifetime : Duration) (q : AccountRequest) :
    (q.code uni lifetime).Meets (accounting uni isHash) q.ghost fun r g =>
      g.request = some q ∧ g.Ends lifetime r := by
  -- a use case decides at most one operation, the one of the request
  have hruns : ∀ {op op'}, q.op = some op' → q.ghost.Runs op →
      op = op' ∧ q.ghost.decided = false := by
    rintro op op' hop ⟨q', hq', -, hop'⟩
    cases hq'
    exact ⟨Option.some_inj.mp (hop'.symm.trans hop), rfl⟩
  have hg : q.ghost.Between q := ⟨rfl, rfl⟩
  have hfailed : ∀ {α : Type} {outcome : α → Outcome} (e : Exn) (g : AccountGhost),
      q.ghost.Same g → g.Fails uni e → q.ghost.Same g ∧
        (∀ a, (Except.error e : Except Exn α) = .ok a → g.Reports uni isHash (outcome a)) ∧
        ∀ e', (Except.error e : Except Exn α) = .error e' → g.Fails uni e' := by
    intro α outcome e g hsame hfails
    refine ⟨hsame, (fun _ h => nomatch h), fun e' h => ?_⟩
    cases h
    exact hfails
  generalize hcode : q.code uni lifetime = code
  -- the use cases are transactions of their own, the actions have one for each step
  cases q with
  | register email password =>
    subst hcode
    refine meets_accountTransaction (meets_register rfl (fun op => hruns rfl)
      (fun id row g hsame hdecided heffect hversion hemail hpassword hhash => ?_) hfailed)
    refine ⟨hsame, fun a ha => ?_, fun _ h => nomatch h⟩
    cases ha
    exact ⟨_, hsame.request, ⟨email, password, row, rfl, heffect, rfl, hversion, hemail, hpassword,
      hhash⟩, fun _ => hdecided⟩
  | authenticate email password =>
    subst hcode
    refine meets_accountTransaction (meets_authenticate rfl (fun op => hruns rfl)
      (fun id row g hsame hdecided heffect hemail hhash => ?_) hfailed)
    refine ⟨hsame, fun a ha => ?_, fun _ h => nomatch h⟩
    cases ha
    exact ⟨_, hsame.request, ⟨email, password, row, rfl, heffect, rfl, hemail, hhash⟩,
      fun _ => hdecided⟩
  | changePassword userId currentPassword newPassword newPasswordConfirmation =>
    subst hcode
    refine meets_accountTransaction (meets_changePassword rfl (fun op => hruns rfl)
      (fun row passwordHash stamp g hsame hdecided heffect hhash hconfirmed hpassword hhash' => ?_)
      fun e g hsame _ => hfailed e g hsame)
    refine ⟨hsame, fun a ha => ?_, fun _ h => nomatch h⟩
    cases ha
    exact ⟨_, hsame.request, ⟨currentPassword, newPassword, newPasswordConfirmation, row,
      passwordHash, stamp, rfl, heffect, rfl, hhash, hconfirmed, hpassword, hhash'⟩,
      fun _ => hdecided⟩
  | registerAction cookie email password passwordConfirmation =>
    subst hcode
    exact meets_answerPage rfl (meets_registerAction rfl hg)
  | loginAction cookie email password =>
    subst hcode
    exact meets_answerPage rfl (meets_loginAction rfl hg)
  | changePasswordAction cookie currentPassword newPassword newPasswordConfirmation =>
    subst hcode
    exact meets_answerPage rfl (meets_changePasswordAction rfl hg)
  | profile cookie =>
    subst hcode
    exact meets_answerPage rfl (meets_profile rfl hg)
  | seed email password =>
    subst hcode
    refine Program.meets_bind.mpr (meets_handlerTransaction rfl (meets_seedOperation rfl rfl hg)
      (fun result g hg' hreported => ⟨hg'.request, hreported⟩) fun e g hg' => ?_)
    exact ⟨hg'.request, fun op hop => absurd hop (AccountGhost.not_runs hg'.request rfl)⟩

end Rules

end Lsstack
