/-
Sessions at every route of the application.

Whatever a process serves, it takes the claims of a cookie to be valid after it has read the
time and the user.  Password changes are made by the account side alone, so what these reads
show is settled by what the account side has committed.

* `ServedRun.reads_committed` — the user that is read is the committed one;
* **`ServedRun.session_accepted_iff`** — claims that a process has answered are accepted, at any
  route, exactly until their lifetime is over or a password change of their user is committed.
-/
import Lsstack.AccountsAlone
import Lsstack.PasswordChanges
import Lsstack.PageAgreement
import Lsstack.OutboxDelivery

namespace Lsstack

open Concurrency

/-! ### Reading a session -/

section Reading

variable {claims : SessionClaims} {t : Instant} {found : Option UserModel}

/-- The replies that revalidation gets: the time, and the user of the claims. -/
def sessionReads (claims : SessionClaims) (t : Instant) (found : Option UserModel) :
    List ((c : Command) × Except Exn c.Reply) :=
  [⟨.ext .now, .ok t⟩, ⟨.select (.user claims.userId) fun _ => true, .ok found⟩]

/-- Revalidation accepts the claims. -/
def Accepted (claims : SessionClaims) (t : Instant) (found : Option UserModel) : Prop :=
  ∃ session, (revalidateSession claims).Reaches (sessionReads claims t found) (.ret session)

theorem accepted_iff : Accepted claims t found ↔
    t < claims.expiresAt ∧
      ∃ row, found = some row ∧ row.sessionVersion = claims.sessionVersion := by
  constructor
  · rintro ⟨session, h⟩
    obtain ⟨t', row, hreads, hexpiry, hversion⟩ := revalidateSession_reaches h
    obtain ⟨htime, hrest⟩ := List.cons.inj hreads
    obtain ⟨hselect, -⟩ := List.cons.inj hrest
    cases htime
    cases hselect
    exact ⟨hexpiry, row, rfl, hversion⟩
  · rintro ⟨hexpiry, row, rfl, hversion⟩
    refine ⟨⟨claims.userId, row.emailNormalized, row.sessionVersion⟩, ?_⟩
    refine .call ?_
    dsimp only [Program.bind]
    rw [if_neg (not_le.mpr hexpiry)]
    refine .call ?_
    show (if row.sessionVersion ≠ claims.sessionVersion then _
      else (.ret _ : Tx UserSession)).Reaches
      [] _
    rw [if_neg (not_not.mpr hversion)]
    exact .nil _

end Reading

/-! ### Runs -/

section Runs

variable {uni : Unicode} {isHash : String → String → Bool} {lifetime : Duration}
  {codec : SqidsPublicIdCodec}

/-- An account process sees the committed row of a user that it reads without a lock. -/
theorem AccountRun.view_of_select {allowed : AccountConfig → AccountRequest → Prop}
    (run : AccountRun uni isHash lifetime allowed) {n i id : ℕ} {p : AccountProcess}
    {P : UserModel → Bool} {k : Except Exn (Option UserModel) → Tx AccountResponse}
    (hp : (run.state n).procs i = some p)
    (hrest : p.rest = some (.call (.select (.user id) P) k)) :
    ((run.state n).world.cell (.user id)).view i = (run.state n).world.row (.user id) := by
  obtain ⟨g, hJ, hall⟩ := (run.invariant n).1
  have ha := hJ.2 i
  have hm := hall i
  rw [hp] at ha hm
  obtain ⟨q, calls, rest⟩ := p
  obtain rfl : rest = _ := hrest
  have hl := ha.locks
  obtain heffect | ⟨row, heffect⟩ := hm.1
  · rw [heffect] at hl
    exact hl.view_eq_row (k := .user id) trivial trivial
  · rw [heffect] at hl
    exact hl.locked_view.trans (ha.row_locked heffect).symm

namespace ServedRun

variable (run : ServedRun uni isHash lifetime codec)

/-- In the step from state `n`, process `i` reads the user of the claims, having read the time. -/
def Reads (n i : ℕ) (claims : SessionClaims) (t : Instant) (found : Option UserModel) : Prop :=
  ∃ p p', (run.state n).procs i = some p ∧ (run.state (n + 1)).procs i = some p' ∧
    p.calls.reverse = [⟨.ext .now, .ok t⟩] ∧ p'.calls.reverse = sessionReads claims t found

/-- Process `j` has answered the claims. -/
def Answers (n j : ℕ) (claims : SessionClaims) : Prop :=
  ∃ q calls response, (run.state n).procs j =
    some ⟨.account q, calls, some (.ret (.account response))⟩ ∧ response.session = some claims

/-- What the account side has committed, newest first. -/
def accountLog (n : ℕ) : List (ℕ × Outcome) :=
  (run.state n).world.log.filter fun entry => accountSide.mine (run.state n) entry.1

/-- **The user that is read** is the committed one, whoever reads. -/
theorem reads_committed {n i : ℕ} {claims : SessionClaims} {t : Instant} {found : Option UserModel}
    (h : run.Reads n i claims t found) :
    found = (run.state n).world.row (.user claims.userId) := by
  obtain ⟨p, p', hp, hp', hcalls, hcalls'⟩ := h
  have hread : p'.calls = ⟨.select (.user claims.userId) fun _ => true, .ok found⟩ :: p.calls := by
    rw [List.reverse_eq_iff.mp hcalls', List.reverse_eq_iff.mp hcalls]
    rfl
  have hstep := (run.next n).resolve_left fun hn => by
    rw [hn, hp] at hp'
    rw [← Option.some_inj.mp hp'] at hread
    exact List.cons_ne_self _ _ hread.symm
  obtain ⟨k, x, hrest, hdoes⟩ := hstep.called hp hp' hread
  have he : exec Fault.exn (outside isHash) (run.state n).world i
      (.select (.user claims.userId) fun _ => true) x =
        some (.ok found, (run.state (n + 1)).world) := hdoes
  obtain ⟨-, ⟨e, hr⟩ | hr⟩ := exec_select he
  · cases hr
  have hfound : found = ((run.state n).world.cell (.user claims.userId)).view i := by
    rw [Except.ok.inj hr]
    rcases ((run.state n).world.cell (.user claims.userId)).view i with _ | row
    · rfl
    · rfl
  rw [hfound]
  obtain ⟨request, calls, rest⟩ := p
  obtain rfl : rest = _ := hrest
  -- an account process is seen in the run of accounts alone; any other never locks a user
  by_cases haccount : ∃ q, request = .account q
  · obtain ⟨q, rfl⟩ := haccount
    obtain ⟨alone, hview⟩ := run.accounts_view
    rw [← (hview n).users, ← (hview n).user_row]
    have hproc : (alone.state n).procs i = some ⟨q, calls, some (.call
        (.select (.user claims.userId) fun _ => true) fun r => (k r).bind fun a =>
          .ret a.toAccount)⟩ := by
      rw [(hview n).procs, hp]
      rfl
    exact alone.view_of_select hproc rfl
  · refine World.view_eq_row ?_
    refine (Part.apart accountSide_splits run.toRun (fun k _ => run.unlocked k) run.unlogged
      n).owner_ne ?_ _ rfl
    rw [Part.mine, hp]
    cases request with
    | account q => exact absurd ⟨q, rfl⟩ haccount
    | _ => rfl

/-- **Claims are accepted at every route** exactly until their lifetime is over or a password
change of their user is committed. -/
theorem session_accepted_iff {n i j : ℕ} {claims : SessionClaims} {t : Instant}
    {found : Option UserModel} (h : run.Reads n i claims t found) (hj : run.Answers n j claims) :
    ∃ out newer older row, run.accountLog n = newer ++ (j, out) :: older ∧
      out.credential = some (claims.userId, claims.sessionVersion) ∧ found = some row ∧
      (Accepted claims t found ↔ t < claims.issuedAt + lifetime ∧
        replacements claims.userId row.emailNormalized newer = 0) := by
  obtain ⟨q, calls, response, hp, hsession⟩ := hj
  have hcommitted := run.reads_committed h
  obtain ⟨alone, hview⟩ := run.accounts_view
  have hissues : Issues (alone.state n) j claims := by
    refine ⟨⟨q, calls, some (.ret response)⟩, response, ?_, rfl, hsession⟩
    rw [(hview n).procs, hp]
    rfl
  obtain ⟨-, out, -, hmem, hcredential, -, hexpires⟩ := alone.issued hissues
  obtain ⟨newer, older, hlog⟩ := List.append_of_mem hmem
  obtain ⟨row, hrow, hversion⟩ := alone.credential_version n hlog hcredential
  rw [(hview n).user_row] at hrow
  obtain rfl : found = some row := hcommitted.trans hrow
  refine ⟨out, newer, older, row, (hview n).log.symm.trans hlog, hcredential, rfl, ?_⟩
  -- the version of the user is that of the claims and the replacements since then
  rw [accepted_iff, hexpires]
  refine and_congr_right fun _ => ?_
  constructor
  · rintro ⟨row', hrow', hversion'⟩
    obtain rfl := Option.some_inj.mp hrow'
    omega
  · intro hnone
    exact ⟨row, rfl, by omega⟩

end ServedRun

end Runs

/-! ### A visit -/

/-- The claims that a user is answered at registration. -/
def adaClaims : SessionClaims := ⟨1, 0, 1, 1001⟩

/-- A user registers, and visits the root with the cookie. -/
def registersAndVisits : List (Label ServedRequest (Choice Fault Decision)) :=
  [.start 0 (.account (.registerAction none "ada@example.org" "correct horse" "correct horse")),
    .act 0 (.ext (.time 0)), .act 0 (.ext (.hashed "1$correct horse")), .act 0 .ok, .act 0 .ok,
    .act 0 .ok, .act 0 .ok, .act 0 (.ext (.time 1)), .start 1 (.visit .root (some adaClaims)),
    .act 1 (.ext (.time 2)), .act 1 .ok]

theorem served_registersAndVisits :
    ∀ q ∈ registersAndVisits.filterMap Label.arrival, q.served = true := by
  intro q hq
  rcases List.mem_cons.mp hq with rfl | hq
  · rfl
  · rw [List.mem_singleton.mp hq]
    rfl

theorem emptyDb_numbered (k : Key) (d : Sequence × ℕ) (_ : k.number = some d)
    (hrow : emptyDb.row k ≠ none) : d.2 < emptyDb.seq d.1 :=
  absurd rfl hrow

theorem emptyDb_indexed : Indexed emptyDb := (accountTrace []).indexed

/-- The run in which they do so. -/
def visitTrace : ServedRun plainText saltedHash 1000 plainCodec where
  toDbRun := traceRun _ _ (fun q => q.served = true) emptyDb registersAndVisits emptyDb_unlocked
    emptyDb_unlogged served_registersAndVisits
  indexed := emptyDb_indexed
  numbered := emptyDb_numbered

theorem visitTrace_reads : visitTrace.Reads 10 1 adaClaims 2
    (some ⟨"ada@example.org", "1$correct horse", 0, 0, 0⟩) :=
  ⟨_, _, rfl, rfl, rfl, rfl⟩

theorem visitTrace_answers : visitTrace.Answers 10 0 adaClaims := ⟨_, _, _, rfl, rfl⟩

/-- The session is accepted. -/
theorem ServedRun.session_accepted_visit : Accepted adaClaims 2
    (some ⟨"ada@example.org", "1$correct horse", 0, 0, 0⟩) := by
  obtain ⟨out, newer, older, row, hlog, -, -, hiff⟩ :=
    visitTrace.session_accepted_iff visitTrace_reads visitTrace_answers
  have hlength : (visitTrace.accountLog 10).length = 1 := rfl
  rw [hlog, List.length_append, List.length_cons] at hlength
  have hnone : newer = [] := List.eq_nil_of_length_eq_zero (by omega)
  refine hiff.mpr ⟨by decide, ?_⟩
  rw [hnone]
  rfl

end Lsstack
