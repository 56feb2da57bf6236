/-
Session revocation and fixed lifetimes.

Every cookie holds claims some earlier request has answered.  Along any run of
registrations, logins, password changes, seeds and authenticated requests:

* `AccountCommit.version` — a commit adds one to the session version of a user
  whose password it replaces, and leaves every other version alone;
* `AccountRun.versions`, `AccountRun.credential_version` — so versions count the
  committed replacements, and a committed credential shows those before it;
* **`session_revocation`** — claims are accepted only if no password replacement
  of their user has been committed after the credential they were issued for, and
  before the fixed lifetime from their issue is over.
-/
import Lsstack.AccountCommits

namespace Lsstack

open Concurrency

/-! ### Versions -/

/-- The result reports a password replacement of the user: a password change
names the user by its id, the seed by its email. -/
def Outcome.replaces (id : ℕ) (address : String) : Outcome → Bool
  | .passwordChanged userId _ => userId == id
  | .seeded result => result.passwordRepaired && result.email == address
  | _ => false

/-- The password replacements of the user among some log entries. -/
def replacements (id : ℕ) (address : String) (log : List (ℕ × Outcome)) : ℕ :=
  log.countP fun entry => entry.2.replaces id address

theorem replacements_cons (id : ℕ) (address : String) (i : ℕ) (out : Outcome)
    (log : List (ℕ × Outcome)) : replacements id address ((i, out) :: log) =
      replacements id address log + (if out.replaces id address then 1 else 0) :=
  List.countP_cons

section Versions

variable {uni : Unicode} {isHash : String → String → Bool} {cfg cfg' : AccountConfig} {i : ℕ}
  {p : AccountProcess} {out : Outcome} {g : AccountGhost}

/-- Two users do not share an email. -/
theorem Indexed.unique {w : Db} (hw : Indexed w) {id id' : ℕ} {row row' : UserModel}
    (h : w.row (.user id) = some row) (h' : w.row (.user id') = some row')
    (heq : row.emailNormalized = row'.emailNormalized) : id = id' := by
  have hrow : w.row (.email row.emailNormalized) = some id := (hw _ _).mpr (by rw [emailOf, h]; rfl)
  have hrow' : w.row (.email row'.emailNormalized) = some id' :=
    (hw _ _).mpr (by rw [emailOf, h']; rfl)
  rw [heq] at hrow
  exact Option.some_inj.mp (hrow.symm.trans hrow')

/-- A result reports a replacement of the user's password exactly if that is what
its transaction has done. -/
theorem AccountCommit.replaces (h : AccountCommit uni isHash cfg cfg' i p out g)
    (hw : Indexed cfg.world) {id : ℕ} {row : UserModel}
    (hrow : cfg.world.row (.user id) = some row) :
    out.replaces id row.emailNormalized = true ↔ ∃ row', g.effect = .replaced id row row' := by
  have hwritten := h.written
  -- the effect names the committed row
  have hwas : ∀ {id' row₀ row'}, g.effect = .replaced id' row₀ row' →
      cfg.world.row (.user id') = some row₀ := by
    intro id' row₀ row' heffect
    have hs := h.step
    rw [heffect] at hs
    cases hs
    assumption
  have hno : (∀ id' row₀ row', g.effect ≠ .replaced id' row₀ row') → out.replaces id
      row.emailNormalized = false → (out.replaces id row.emailNormalized = true ↔
      ∃ row', g.effect = .replaced id row row') := by
    intro hne hfalse
    rw [hfalse]
    exact ⟨(fun h => by cases h), fun ⟨row', h⟩ => absurd h (hne _ _ _)⟩
  cases out with
  | registered result =>
    obtain ⟨_, _, _, -, heffect, -⟩ := hwritten
    exact hno (by simp [heffect]) rfl
  | authenticated result =>
    obtain ⟨_, _, _, -, heffect | ⟨_, heffect⟩, -⟩ := hwritten
    · exact hno (by simp [heffect]) rfl
    · exact hno (by simp [heffect]) rfl
  | passwordChanged userId version =>
    obtain ⟨_, _, _, row₀, passwordHash, stamp, -, heffect, -⟩ := hwritten
    refine ⟨fun hid => ?_, fun ⟨row', h'⟩ => ?_⟩
    · obtain rfl : userId = id := beq_iff_eq.mp hid
      obtain rfl := Option.some_inj.mp ((hwas heffect).symm.trans hrow)
      exact ⟨_, heffect⟩
    · obtain ⟨rfl, -⟩ := AccountEffect.replaced.inj (heffect.symm.trans h')
      exact beq_self_eq_true userId
  | seeded result =>
    have hseeded := hwritten.2
    unfold AccountGhost.Seeded at hseeded
    split at hseeded
    case h_4 id₀ row₀ row₁ hrepaired heffect =>
      refine ⟨fun hid => ?_, fun ⟨row', h'⟩ => ?_⟩
      · have hemail : result.email = row.emailNormalized :=
          beq_iff_eq.mp (Bool.and_eq_true_iff.mp hid).2
        obtain rfl := hw.unique (hwas heffect) hrow (hseeded.symm.trans hemail)
        obtain rfl := Option.some_inj.mp ((hwas heffect).symm.trans hrow)
        exact ⟨_, heffect⟩
      · obtain ⟨rfl, rfl, -⟩ := AccountEffect.replaced.inj (heffect.symm.trans h')
        simp [Outcome.replaces, hrepaired, hseeded]
    all_goals first
      | exact hseeded.elim
      | exact hno (by simp [*]) (by simp [Outcome.replaces, *])
  | visited user =>
    obtain heffect | ⟨_, _, heffect⟩ := hwritten
    · exact hno (by simp [heffect]) rfl
    · exact hno (by simp [heffect]) rfl
  | _ => exact hwritten.elim

/-- **A commit adds one to the version of a user whose password it replaces**,
and keeps the email and every other version. -/
theorem AccountCommit.version (h : AccountCommit uni isHash cfg cfg' i p out g)
    (hw : Indexed cfg.world) {id : ℕ} {row : UserModel}
    (hrow : cfg.world.row (.user id) = some row) :
    ∃ row', cfg'.world.row (.user id) = some row' ∧ row'.emailNormalized = row.emailNormalized ∧
      row'.sessionVersion =
        row.sessionVersion + (if out.replaces id row.emailNormalized then 1 else 0) := by
  have hreplaces := h.replaces hw hrow
  have hstep := h.step
  -- the version goes up where a password is replaced, and stays otherwise
  by_cases hr : out.replaces id row.emailNormalized = true
  · obtain ⟨row', heffect⟩ := hreplaces.mp hr
    rw [heffect] at hstep
    cases hstep with
    | replaced was becomes replaces users emails =>
      obtain ⟨_, _, rfl⟩ := replaces
      exact ⟨_, becomes, rfl, by rw [if_pos hr]; rfl⟩
  · rw [if_neg hr]
    have hstay : cfg'.world.row (.user id) = cfg.world.row (.user id) →
        ∃ row', cfg'.world.row (.user id) = some row' ∧
          row'.emailNormalized = row.emailNormalized ∧
          row'.sessionVersion = row.sessionVersion + 0 :=
        fun hsame => ⟨row, hsame.trans hrow, rfl, rfl⟩
    generalize heffect : g.effect = effect at hstep
    cases hstep with
    | nothing users emails => exact hstay (users id)
    | locked was users emails => exact hstay (users id)
    | @rehashed id₀ row₀ row' was becomes rehashes users emails =>
      by_cases hid : id = id₀
      · subst hid
        obtain rfl := Option.some_inj.mp (was.symm.trans hrow)
        obtain ⟨_, _, rfl, -⟩ := rehashes
        exact ⟨_, becomes, rfl, rfl⟩
      · exact hstay (users id hid)
    | @replaced id₀ row₀ row' was becomes replaces users emails =>
      have hid : id ≠ id₀ := by
        rintro rfl
        obtain rfl := Option.some_inj.mp (was.symm.trans hrow)
        exact hr (hreplaces.mpr ⟨row', heffect⟩)
      exact hstay (users id hid)
    | @inserted id₀ row₀ was free becomes indexed users emails =>
      have hid : id ≠ id₀ := by
        rintro rfl
        cases was.symm.trans hrow
      exact hstay (users id hid)

/-- **A committed credential shows the version** of its user. -/
theorem AccountCommit.credential (h : AccountCommit uni isHash cfg cfg' i p out g) {id v : ℕ}
    (hout : out.credential = some (id, v)) :
    ∃ row', cfg'.world.row (.user id) = some row' ∧ row'.sessionVersion = v := by
  have hwritten := h.written
  have hstep := h.step
  -- the version reported is that of the row the commit leaves
  cases out with
  | registered result =>
    obtain ⟨_, _, row, -, heffect, hresult, hversion, -⟩ := hwritten
    rw [heffect] at hstep
    rw [hresult] at hout
    cases hout
    cases hstep
    exact ⟨row, by assumption, hversion⟩
  | authenticated result =>
    obtain ⟨_, _, row, -, heffect, hresult, -⟩ := hwritten
    rw [hresult] at hout
    cases hout
    obtain heffect | ⟨row', heffect⟩ := heffect
    · rw [heffect] at hstep
      cases hstep with
      | locked was users emails => exact ⟨row, (users _).trans was, rfl⟩
    · rw [heffect] at hstep
      cases hstep with
      | rehashed was becomes rehashes users emails =>
        obtain ⟨_, _, rfl, -⟩ := rehashes
        exact ⟨_, becomes, rfl⟩
  | passwordChanged userId version =>
    obtain ⟨_, _, _, row, _, _, -, heffect, rfl, -⟩ := hwritten
    cases hout
    rw [heffect] at hstep
    cases hstep
    exact ⟨_, by assumption, rfl⟩
  | _ => cases hout

end Versions

/-! ### Cookies -/

/-- A successful revalidation has read the time before the expiry, and the user
with the version of the claims. -/
theorem revalidateSession_reaches {claims : SessionClaims} {session : UserSession}
    {calls : List ((c : Command) × Except Exn c.Reply)}
    (h : (revalidateSession claims).Reaches calls (.ret session)) :
    ∃ t row, calls = [⟨.ext .now, .ok t⟩,
        ⟨.select (.user claims.userId) fun _ => true, .ok (some row)⟩] ∧
      t < claims.expiresAt ∧ row.sessionVersion = claims.sessionVersion := by
  simp only [revalidateSession, getUserSession, UserRepository.getById, now, call, select, perform,
    Program.perform, Program.bind_eq, Program.bind] at h
  cases h with
  | @call _ _ r calls _ h =>
    rcases r with e | t
    · cases h
    dsimp only [Program.bind] at h
    split at h
    · cases h
    rename_i hexpiry
    cases h with
    | @call _ _ r calls _ h =>
      rcases r with e | _ | row
      · cases h
      · cases h
      simp only [Program.bind, Program.pure_eq, Option.map_some, UserModel.detach] at h
      split at h
      · cases h
      rename_i hversion
      cases h
      exact ⟨t, row, rfl, not_le.mp hexpiry, not_not.mp hversion⟩

/-- Process `j` has answered the claims. -/
def Issues (cfg : AccountConfig) (j : ℕ) (claims : SessionClaims) : Prop :=
  ∃ p response, cfg.procs j = some p ∧ p.rest = some (.ret response) ∧
    response.session = some claims

/-- A cookie holds claims that some request has answered. -/
def Presents (cfg : AccountConfig) (q : AccountRequest) : Prop :=
  ∀ claims, q.cookie = some claims → ∃ j, Issues cfg j claims

theorem Issues.step {allowed : AccountConfig → AccountRequest → Prop} {uni : Unicode}
    {isHash : String → String → Bool} {lifetime : Duration} {cfg cfg' : AccountConfig}
    {j : ℕ} {claims : SessionClaims} (h : Issues cfg j claims)
    (hs : (machine isHash (AccountRequest.code uni lifetime)).Step allowed cfg cfg') :
    Issues cfg' j claims := by
  obtain ⟨p, response, hp, hrest, hsession⟩ := h
  exact ⟨p, response, hs.finished hp hrest, hrest, hsession⟩

namespace AccountRun

variable {uni : Unicode} {isHash : String → String → Bool} {lifetime : Duration}

section

variable {allowed : AccountConfig → AccountRequest → Prop}

theorem indexed_at (run : AccountRun uni isHash lifetime allowed) (n : ℕ) :
    Indexed (run.state n).world := by
  obtain ⟨_, hJ, -⟩ := (run.invariant n).1
  exact hJ.1

/-- **Versions count the committed password replacements.** -/
theorem versions (run : AccountRun uni isHash lifetime allowed) {m n : ℕ} (hmn : m ≤ n) :
    ∃ newer, (run.state n).world.log = newer ++ (run.state m).world.log ∧
      ∀ id row, (run.state m).world.row (.user id) = some row →
        ∃ row', (run.state n).world.row (.user id) = some row' ∧
          row'.emailNormalized = row.emailNormalized ∧
          row'.sessionVersion = row.sessionVersion + replacements id row.emailNormalized newer := by
  induction n, hmn using Nat.le_induction with
  | base => exact ⟨[], rfl, fun id row hrow => ⟨row, hrow, rfl, rfl⟩⟩
  | succ n _ ih =>
    obtain ⟨newer, hlog, hrows⟩ := ih
    obtain ⟨hsame, hlog'⟩ | ⟨i, p, out, g, hc⟩ := run.step n
    · refine ⟨newer, hlog'.trans hlog, fun id row hrow => ?_⟩
      rw [hsame]
      exact hrows id row hrow
    · refine ⟨(i, out) :: newer, by rw [hc.log, hlog]; rfl, fun id row hrow => ?_⟩
      obtain ⟨row₁, hrow₁, hemail₁, hversion₁⟩ := hrows id row hrow
      obtain ⟨row₂, hrow₂, hemail₂, hversion₂⟩ := hc.version (run.indexed_at n) hrow₁
      refine ⟨row₂, hrow₂, hemail₂.trans hemail₁, ?_⟩
      rw [hversion₂, hversion₁, hemail₁, replacements_cons, Nat.add_assoc]

/-- **A committed credential shows the replacements before it**: the version has
grown by those since. -/
theorem credential_version (run : AccountRun uni isHash lifetime allowed) (n : ℕ)
    {newer older : List (ℕ × Outcome)} {j : ℕ} {out : Outcome} {id v : ℕ}
    (hlog : (run.state n).world.log = newer ++ (j, out) :: older)
    (hout : out.credential = some (id, v)) :
    ∃ row, (run.state n).world.row (.user id) = some row ∧
      row.sessionVersion = v + replacements id row.emailNormalized newer := by
  induction n generalizing newer with
  | zero =>
    rw [run.unlogged] at hlog
    simp at hlog
  | succ n ih =>
    obtain ⟨hsame, hlog'⟩ | ⟨i, p, out', g, hc⟩ := run.step n
    · rw [hsame]
      exact ih (hlog'.symm.trans hlog)
    rw [hc.log] at hlog
    rcases newer with _ | ⟨entry, newer⟩
    · -- the credential itself has just been committed
      obtain ⟨rfl, rfl⟩ := Prod.mk.inj (List.cons.inj hlog).1
      obtain ⟨row, hrow, hversion⟩ := hc.credential hout
      exact ⟨row, hrow, hversion⟩
    · obtain ⟨rfl, hrest⟩ := List.cons.inj hlog
      obtain ⟨row, hrow, hversion⟩ := ih hrest
      obtain ⟨row', hrow', hemail', hversion'⟩ := hc.version (run.indexed_at n) hrow
      refine ⟨row', hrow', ?_⟩
      rw [hversion', hversion, hemail', replacements_cons, Nat.add_assoc]

/-- A process that has answered claims has committed their credential, and read
the time of their issue. -/
theorem issued (run : AccountRun uni isHash lifetime allowed) {n j : ℕ} {claims : SessionClaims}
    (h : Issues (run.state n) j claims) :
    ∃ p out, (run.state n).procs j = some p ∧ (j, out) ∈ (run.state n).world.log ∧
      out.credential = some (claims.userId, claims.sessionVersion) ∧
      (⟨.ext .now, .ok claims.issuedAt⟩ : (c : Command) × Except Exn c.Reply) ∈ p.calls ∧
      claims.expiresAt = claims.issuedAt + lifetime := by
  obtain ⟨p, response, hp, hrest, hsession⟩ := h
  obtain ⟨g, hJ, hall⟩ := (run.invariant n).1
  have ha := hJ.2 j
  have hm := hall j
  rw [hp] at ha hm
  obtain ⟨q, calls, rest⟩ := p
  obtain rfl : rest = some (.ret response) := hrest
  obtain ⟨-, hends⟩ := hm
  cases response with
  | outcome out => cases hsession
  | page page =>
    obtain ⟨⟨out, hreported, hcredential⟩, hissued, hexpires⟩ := hends claims hsession
    exact ⟨_, out, hp, ha.reported out hreported, hcredential, ha.clock _ rfl _ hissued, hexpires⟩

end

/-- A user read without a lock is the committed one. -/
theorem row_of_select {allowed : AccountConfig → AccountRequest → Prop}
    (run : AccountRun uni isHash lifetime allowed) {n i id : ℕ} {p : AccountProcess}
    {P : UserModel → Bool} {k : Except Exn (Option UserModel) → Tx AccountResponse}
    {x : Choice Fault Decision} {row : UserModel} {w : Db}
    (hp : (run.state n).procs i = some p)
    (hrest : p.rest = some (.call (.select (.user id) P) k))
    (he : exec Fault.exn (outside isHash) (run.state n).world i (.select (.user id) P) x =
      some (.ok (some row), w)) : (run.state n).world.row (.user id) = some row := by
  obtain ⟨g, hJ, hall⟩ := (run.invariant n).1
  have ha := hJ.2 i
  have hm := hall i
  rw [hp] at ha hm
  obtain ⟨q, calls, rest⟩ := p
  obtain rfl : rest = _ := hrest
  obtain ⟨-, ⟨e, hr⟩ | hr⟩ := exec_select he
  · cases hr
  have hview : ((run.state n).world.cell (.user id)).view i = some row :=
    (Option.filter_eq_some_iff.mp (Except.ok.inj hr).symm).1
  have hl := ha.locks
  obtain heffect | ⟨row', heffect⟩ := hm.1
  · rw [heffect] at hl
    exact (hl.view_eq_row (k := .user id) trivial trivial).symm.trans hview
  · obtain rfl : row' = row := by
      rw [heffect] at hl
      exact Option.some_inj.mp (hl.locked_view.symm.trans hview)
    exact ha.row_locked heffect

/-- Whoever presents claims presents answered ones. -/
theorem presented (run : AccountRun uni isHash lifetime Presents) (n : ℕ) {i : ℕ}
    {p : AccountProcess} (hp : (run.state n).procs i = some p) {claims : SessionClaims}
    (hclaims : p.request.cookie = some claims) : ∃ j, Issues (run.state n) j claims := by
  induction n generalizing i p with
  | zero =>
    rw [run.empty] at hp
    cases hp
  | succ n ih =>
    rcases run.next n with hn | hn
    · rw [hn] at hp ⊢
      exact ih hp hclaims
    rcases hold : (run.state n).procs i with _ | p₀
    · obtain ⟨j, hj⟩ := hn.arrived hold hp claims hclaims
      exact ⟨j, hj.step hn⟩
    · obtain ⟨p', hp', hreq, -⟩ := hn.proc hold
      obtain rfl := Option.some_inj.mp (hp.symm.trans hp')
      obtain ⟨j, hj⟩ := ih hold (hreq ▸ hclaims)
      exact ⟨j, hj.step hn⟩

/-- Process `i` revalidates the claims of its cookie with success in the step
from state `n`, having read the time `t`. -/
def Accepts {allowed : AccountConfig → AccountRequest → Prop}
    (run : AccountRun uni isHash lifetime allowed) (n i : ℕ) (claims : SessionClaims)
    (t : Instant) : Prop :=
  ∃ p p' c r session, (run.state n).procs i = some p ∧ (run.state (n + 1)).procs i = some p' ∧
    p'.calls = ⟨c, r⟩ :: p.calls ∧ p.request.cookie = some claims ∧
    (revalidateSession claims).Reaches p'.calls.reverse (.ret session) ∧
    lastReading p'.calls = some t

/-- An accepted session shows the committed row of its user, and has not expired. -/
theorem Accepts.row {allowed : AccountConfig → AccountRequest → Prop}
    {run : AccountRun uni isHash lifetime allowed} {n i : ℕ} {claims : SessionClaims}
    {t : Instant} (h : run.Accepts n i claims t) :
    t < claims.expiresAt ∧ ∃ row, (run.state n).world.row (.user claims.userId) = some row ∧
      row.sessionVersion = claims.sessionVersion := by
  obtain ⟨p, p', c, r, session, hp, hp', hcalls, -, hreaches, htime⟩ := h
  obtain ⟨t', row, hreplies, hexpiry, hversion⟩ := revalidateSession_reaches hreaches
  have hnow : p'.calls = [⟨.select (.user claims.userId) fun _ => true, .ok (some row)⟩,
      ⟨.ext .now, .ok t'⟩] := by
    rw [← List.reverse_reverse p'.calls, hreplies]
    rfl
  rw [hnow] at htime hcalls
  obtain rfl := Option.some_inj.mp htime
  refine ⟨hexpiry, row, ?_, hversion⟩
  -- the read that has just been made shows the committed row
  obtain ⟨hcall, htail⟩ := List.cons.inj hcalls
  cases hcall
  rcases run.next n with hn | hn
  · rw [hn] at hp'
    obtain rfl := Option.some_inj.mp (hp.symm.trans hp')
    exact absurd (hnow.symm.trans htail.symm) (by simp)
  obtain ⟨k, x, hrest, hexec⟩ := hn.called hp hp' (hnow.trans (by rw [← htail]))
  exact run.row_of_select hp hrest hexec

end AccountRun

/-- **Session revocation and fixed lifetimes.**  The session version of a user
counts the committed password replacements, and nothing else changes it.  Claims
that are accepted have been answered, and whoever has answered them has committed
their credential after the last password replacement of their user, and has fixed
their end when it issued them. -/
theorem session_revocation {uni : Unicode} {isHash : String → String → Bool}
    {lifetime : Duration} (run : AccountRun uni isHash lifetime Presents) :
    (∀ m n, m ≤ n → ∃ newer, (run.state n).world.log = newer ++ (run.state m).world.log ∧
      ∀ id row, (run.state m).world.row (.user id) = some row →
        ∃ row', (run.state n).world.row (.user id) = some row' ∧
          row'.sessionVersion = row.sessionVersion + replacements id row.emailNormalized newer) ∧
    ∀ n i claims t, run.Accepts n i claims t →
      (∃ j, Issues (run.state n) j claims) ∧
      ∀ j, Issues (run.state n) j claims → ∃ p out newer older row,
        (run.state n).procs j = some p ∧
        (run.state n).world.log = newer ++ (j, out) :: older ∧
        out.credential = some (claims.userId, claims.sessionVersion) ∧
        (run.state n).world.row (.user claims.userId) = some row ∧
        replacements claims.userId row.emailNormalized newer = 0 ∧
        (⟨.ext .now, .ok claims.issuedAt⟩ : (c : Command) × Except Exn c.Reply) ∈ p.calls ∧
        t < claims.issuedAt + lifetime := by
  refine ⟨fun m n hmn => ?_, fun n i claims t h => ?_⟩
  · obtain ⟨newer, hlog, hrows⟩ := run.versions hmn
    refine ⟨newer, hlog, fun id row hrow => ?_⟩
    obtain ⟨row', hrow', -, hversion⟩ := hrows id row hrow
    exact ⟨row', hrow', hversion⟩
  -- the claims carry the version of their credential, and the row still has it
  · obtain ⟨hexpiry, row, hrow, hversion⟩ := h.row
    obtain ⟨p, -, -, -, -, hp, -, -, hcookie, -⟩ := h
    refine ⟨run.presented n hp hcookie, fun j hj => ?_⟩
    obtain ⟨q, out, hq, hmem, hcredential, hissued, hexpires⟩ := run.issued hj
    obtain ⟨newer, older, hlog⟩ := List.append_of_mem hmem
    obtain ⟨row', hrow', hversion'⟩ := run.credential_version n hlog hcredential
    obtain rfl := Option.some_inj.mp (hrow.symm.trans hrow')
    have hnone : replacements claims.userId row.emailNormalized newer = 0 := by omega
    exact ⟨q, out, newer, older, row, hq, hlog, hcredential, hrow, hnone, hissued,
      hexpires ▸ hexpiry⟩

end Lsstack
