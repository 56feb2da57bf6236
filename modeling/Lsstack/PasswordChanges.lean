/-
How many password changes one session version authorises.

A change request revalidates its claims without a lock, then locks the row and
verifies the current password, but does not compare the versions again.  So what
it commits rests on the version it finds under the lock:

* **`one_change_per_version`** — where every change request that could go through
  finds the version of its claims under the lock, each commit follows the version
  of its claims, and of the requests with one cookie at most one commits;
* **`one_change_per_version_violated`** — two requests with one cookie, whose new
  password is the current one, both commit.
-/
import Lsstack.SessionRevocation

namespace Lsstack

open Concurrency

namespace AccountRun

variable {uni : Unicode} {isHash : String → String → Bool} {lifetime : Duration}
  {allowed : AccountConfig → AccountRequest → Prop}

/-- In the step from state `n`, process `i` locks the row of a user. -/
def LocksUser (run : AccountRun uni isHash lifetime allowed) (n i id : ℕ) : Prop :=
  ∃ p p' P row, (run.state n).procs i = some p ∧ (run.state (n + 1)).procs i = some p' ∧
    p'.calls = ⟨.lock (.user id) P, .ok (some row)⟩ :: p.calls

/-- In the step from state `n`, process `i` commits a password change that presents
the claims. -/
def ChangesPassword (run : AccountRun uni isHash lifetime allowed) (n i : ℕ)
    (claims : SessionClaims) : Prop :=
  ∃ p current new confirmation userId version, (run.state n).procs i = some p ∧
    p.request = .changePasswordAction (some claims) current new confirmation ∧
    (run.state (n + 1)).world.log = (i, .passwordChanged userId version) :: (run.state n).world.log

/-- A change request that locks its row finds the version of its claims there,
unless the row and the form make it fail. -/
def FreshAtLock (run : AccountRun uni isHash lifetime allowed) : Prop :=
  ∀ n i p claims current new confirmation row, (run.state n).procs i = some p →
    p.request = .changePasswordAction (some claims) current new confirmation →
    run.LocksUser n i claims.userId →
    (run.state n).world.row (.user claims.userId) = some row →
    row.sessionVersion = claims.sessionVersion ∨ isHash current row.passwordHash = false ∨
      new ≠ confirmation ∨ validatePassword uni new row.emailNormalized ≠ .ok ()

/-- A locking read shows the committed row. -/
theorem row_of_lock (run : AccountRun uni isHash lifetime allowed) {n i id : ℕ} {p : AccountProcess}
    {P : UserModel → Bool} {k : Except Exn (Option UserModel) → Tx AccountResponse}
    {x : Choice Fault Decision} {row : UserModel} {w : Db}
    (hp : (run.state n).procs i = some p)
    (hrest : p.rest = some (.call (.lock (.user id) P) k))
    (he : exec Fault.exn (outside isHash) (run.state n).world i (.lock (.user id) P) x =
      some (.ok (some row), w)) : (run.state n).world.row (.user id) = some row := by
  obtain ⟨g, hJ, hall⟩ := (run.invariant n).1
  have ha := hJ.2 i
  have hm := hall i
  rw [hp] at ha hm
  obtain ⟨q, calls, rest⟩ := p
  obtain rfl : rest = _ := hrest
  have hu : (g i).effect.Unlocked := by
    obtain heffect | ⟨address, heffect⟩ := hm.1
    · rw [heffect]
      trivial
    · rw [heffect]
      trivial
  obtain ⟨-, e, hr⟩ | ⟨-, hr, -⟩ | ⟨row', -, hr, hrow⟩ := exec_lock he
  · cases hr
  · cases hr
  · cases hr
    exact (ha.locks.view_eq_row hu (k := .user id) trivial).symm.trans (World.acquire_row hrow).1

/-- **A change request commits over the version of its claims**, where it found
that version under its lock. -/
theorem version_of_change (run : AccountRun uni isHash lifetime allowed) (hfresh : run.FreshAtLock)
    {n i : ℕ} {claims : SessionClaims} (h : run.ChangesPassword n i claims) :
    ∃ row version, (run.state n).world.row (.user claims.userId) = some row ∧
      row.sessionVersion = claims.sessionVersion ∧
      (run.state (n + 1)).world.log =
        (i, .passwordChanged claims.userId version) :: (run.state n).world.log := by
  obtain ⟨p, current, new, confirmation, userId, version, hp, hrequest, hlog⟩ := h
  obtain ⟨-, hsame⟩ | ⟨i', p', out, g, hc⟩ := run.step n
  · exact absurd (hsame.symm.trans hlog) (by simp)
  obtain ⟨rfl, rfl⟩ := Prod.mk.inj (List.cons.inj (hc.log.symm.trans hlog)).1
  obtain rfl := Option.some_inj.mp (hp.symm.trans hc.proc)
  obtain ⟨current', new', confirmation', row, passwordHash, stamp, hop, heffect, -, hhash,
    hconfirmed, hpassword, -⟩ := hc.written
  rw [hrequest] at hop
  cases hop
  -- the row found under the lock is the one that is replaced
  obtain ⟨P, hmem⟩ := hc.locked claims.userId row (by rw [heffect]; rfl)
  obtain ⟨m, p₁, p₂, hm, hp₁, hp₂, hcalls, hreq⟩ := run.called n hp hmem
  have hlocked : (run.state m).world.row (.user claims.userId) = some row := by
    rcases run.next m with hn | hn
    · rw [hn] at hp₂
      obtain rfl := Option.some_inj.mp (hp₁.symm.trans hp₂)
      exact absurd hcalls.symm (List.cons_ne_self _ _)
    · obtain ⟨k, x, hrest, hexec⟩ := hn.called hp₁ hp₂ hcalls
      exact run.row_of_lock hp₁ hrest hexec
  have hversion : row.sessionVersion = claims.sessionVersion := by
    obtain h | h | h | h := hfresh m i' p₁ claims current new confirmation row hp₁
      (hreq.trans hrequest) ⟨p₁, p₂, P, row, hp₁, hp₂, hcalls⟩ hlocked
    · exact h
    · rw [hhash] at h
      cases h
    · exact absurd hconfirmed h
    · exact absurd hpassword h
  have hstep := hc.step
  rw [heffect] at hstep
  cases hstep with
  | replaced was becomes replaces users emails => exact ⟨row, version, was, hversion, hlog⟩

/-- Of two changes that present the same claims, the later finds a higher version. -/
theorem change_lt (run : AccountRun uni isHash lifetime allowed) (hfresh : run.FreshAtLock)
    {m n i j : ℕ} {claims : SessionClaims} (hi : run.ChangesPassword m i claims)
    (hj : run.ChangesPassword n j claims) : ¬ m < n := by
  intro hmn
  obtain ⟨row, version, hrow, hversion, hlog⟩ := run.version_of_change hfresh hi
  obtain ⟨row', -, hrow', hversion', -⟩ := run.version_of_change hfresh hj
  obtain ⟨newer, hnewer, hrows⟩ := run.versions (Nat.le_of_lt hmn)
  obtain ⟨newer', hnewer', -⟩ := run.versions (Nat.succ_le_of_lt hmn)
  obtain ⟨row₁, hrow₁, -, hversion₁⟩ := hrows claims.userId row hrow
  obtain rfl := Option.some_inj.mp (hrow'.symm.trans hrow₁)
  -- the first change is among the replacements before the second
  have hmem : newer = newer' ++ [(i, .passwordChanged claims.userId version)] := by
    have happend : newer ++ (run.state m).world.log =
        (newer' ++ [(i, .passwordChanged claims.userId version)]) ++ (run.state m).world.log := by
      rw [← hnewer, hnewer', hlog, List.append_assoc]
      rfl
    exact List.append_cancel_right happend
  have hcount : 0 < replacements claims.userId row.emailNormalized newer := by
    refine List.countP_pos_iff.mpr ⟨(i, .passwordChanged claims.userId version), ?_, ?_⟩
    · rw [hmem]
      exact List.mem_append_right _ (List.mem_singleton_self _)
    · exact beq_self_eq_true claims.userId
  omega

end AccountRun

/-- **One password change for each session version**, where every change request
that could go through finds the version of its claims under its lock. -/
theorem one_change_per_version {uni : Unicode} {isHash : String → String → Bool}
    {lifetime : Duration} {allowed : AccountConfig → AccountRequest → Prop}
    (run : AccountRun uni isHash lifetime allowed) (hfresh : run.FreshAtLock) :
    (∀ n i claims, run.ChangesPassword n i claims →
      ∃ row, (run.state n).world.row (.user claims.userId) = some row ∧
        row.sessionVersion = claims.sessionVersion) ∧
    ∀ m n i j claims, run.ChangesPassword m i claims → run.ChangesPassword n j claims →
      m = n ∧ i = j := by
  refine ⟨fun n i claims h => ?_, fun m n i j claims hi hj => ?_⟩
  · obtain ⟨row, -, hrow, hversion, -⟩ := run.version_of_change hfresh h
    exact ⟨row, hrow, hversion⟩
  · have h₁ := run.change_lt hfresh hi hj
    have h₂ := run.change_lt hfresh hj hi
    obtain rfl : m = n := by omega
    obtain ⟨_, _, _, _, _, _, -, -, hlog⟩ := hi
    obtain ⟨_, _, _, _, _, _, -, -, hlog'⟩ := hj
    exact ⟨rfl, congrArg Prod.fst (List.cons.inj (hlog.symm.trans hlog')).1⟩

/-! ### Traces from an empty database -/

/-- Text without capitals, compatibility characters or anything else to fold. -/
def plainText : Unicode := ⟨id, id, fun _ _ => rfl⟩

/-- Hashes with one of two salts. -/
def saltedHash (password passwordHash : String) : Bool :=
  passwordHash == "1$" ++ password || passwordHash == "2$" ++ password

/-- A user registers, and is answered a session. -/
def registers (i : ℕ) (email password : String) :
    List (Label AccountRequest (Choice Fault Decision)) :=
  [.start i (.registerAction none email password password), .act i (.ext (.time 0)),
    .act i (.ext (.hashed ("1$" ++ password))), .act i .ok, .act i .ok, .act i .ok, .act i .ok,
    .act i (.ext (.time 1))]

/-- A change request arrives and revalidates its claims. -/
def revalidates (i : ℕ) (claims : SessionClaims) (current new : String) :
    List (Label AccountRequest (Choice Fault Decision)) :=
  [.start i (.changePasswordAction (some claims) current new new), .act i (.ext (.time 2)),
    .act i .ok]

/-- It takes the lock, verifies, writes and commits. -/
def changes (i : ℕ) (new : String) (t : Instant) :
    List (Label AccountRequest (Choice Fault Decision)) :=
  [.act i .ok, .act i (.ext (.upgrade none)), .act i (.ext (.hashed ("2$" ++ new))),
    .act i (.ext (.time t)), .act i .ok, .act i .ok, .act i .ok, .act i (.ext (.time t))]

/-- The run that follows some labels from the empty database. -/
def accountTrace (ls : List (Label AccountRequest (Choice Fault Decision))) :
    AccountRun plainText saltedHash 1000 fun _ _ => True where
  toDbRun := traceRun _ _ (fun _ => True) emptyDb ls (fun _ => rfl) rfl fun _ _ => trivial
  indexed := fun _ _ => ⟨nofun, nofun⟩
  below := nofun

/-- The rows of a user that locking reads have returned. -/
def lockedRows (id : ℕ) (calls : List ((c : Command) × Except Exn c.Reply)) : List UserModel :=
  calls.filterMap fun
    | ⟨.lock (.user id') _, .ok (some row)⟩ => if id' = id then some row else none
    | _ => none

theorem mem_lockedRows {id : ℕ} {calls : List ((c : Command) × Except Exn c.Reply)}
    {P : UserModel → Bool} {row : UserModel}
    (h : (⟨.lock (.user id) P, .ok (some row)⟩ : (c : Command) × Except Exn c.Reply) ∈ calls) :
    row ∈ lockedRows id calls :=
  List.mem_filterMap.mpr ⟨_, h, if_pos rfl⟩

/-- Locks are fresh in a trace if the calls made until its end show it. -/
theorem freshAtLock_accountTrace {ls : List (Label AccountRequest (Choice Fault Decision))}
    (h : ∀ i p claims current new confirmation row,
      ((accountTrace ls).state ls.length).procs i = some p →
      p.request = .changePasswordAction (some claims) current new confirmation →
      row ∈ lockedRows claims.userId p.calls → row.sessionVersion = claims.sessionVersion) :
    (accountTrace ls).FreshAtLock := by
  intro n i p claims current new confirmation row hp hrequest hlocks hrow
  obtain ⟨p₁, p', P, row', hp₁, hp', hcalls⟩ := hlocks
  obtain rfl := Option.some_inj.mp (hp.symm.trans hp₁)
  rcases (accountTrace ls).next n with hn | hn
  · rw [hn] at hp'
    obtain rfl := Option.some_inj.mp (hp.symm.trans hp')
    exact absurd hcalls.symm (List.cons_ne_self _ _)
  obtain ⟨k, x, hrest, hexec⟩ := hn.called hp hp' hcalls
  obtain rfl := Option.some_inj.mp (((accountTrace ls).row_of_lock hp hrest hexec).symm.trans hrow)
  obtain ⟨q, hq, hreq, -⟩ := hn.proc hp
  obtain rfl := Option.some_inj.mp (hp'.symm.trans hq)
  -- the calls of the step are among those at the end
  obtain ⟨q', hq', hreq', hsub⟩ : ∃ q', ((accountTrace ls).state ls.length).procs i = some q' ∧
      q'.request = p'.request ∧ p'.calls ⊆ q'.calls := by
    by_cases hlen : n + 1 ≤ ls.length
    · exact (accountTrace ls).proc hlen hp'
    · have hend := Machine.trace_end (machine saltedHash (AccountRequest.code plainText 1000))
        ⟨emptyDb, fun _ => none⟩ (Nat.le_of_not_le hlen)
      exact ⟨p', (congrArg (·.procs i) hend).symm.trans hp', rfl, List.Subset.refl _⟩
  have hmem := hcalls ▸ List.mem_cons_self
  exact .inl (h i q' claims current new confirmation _ hq' (hreq'.trans (hreq.trans hrequest))
    (mem_lockedRows (hsub hmem)))

/-- A user registers and changes the password. -/
def changesOnce : List (Label AccountRequest (Choice Fault Decision)) :=
  registers 0 "ada@example.org" "correct horse" ++
    revalidates 1 ⟨1, 0, 1, 1001⟩ "correct horse" "battery staple" ++ changes 1 "battery staple" 3

/-- So it does there: the change is committed over version 0. -/
theorem one_change_per_version_once :
    (accountTrace changesOnce).ChangesPassword 17 1 ⟨1, 0, 1, 1001⟩ ∧
    ∃ row, ((accountTrace changesOnce).state 17).world.row (.user 1) = some row ∧
      row.sessionVersion = 0 := by
  have hchange : (accountTrace changesOnce).ChangesPassword 17 1 ⟨1, 0, 1, 1001⟩ :=
    ⟨_, "correct horse", "battery staple", "battery staple", 1, 1, rfl, rfl, rfl⟩
  have hfresh : (accountTrace changesOnce).FreshAtLock := by
    refine freshAtLock_accountTrace
      fun i p claims current new confirmation row hp hrequest hrow => ?_
    rcases i with _ | _ | i
    · obtain rfl := Option.some_inj.mp hp
      cases hrequest
    · obtain rfl := Option.some_inj.mp hp
      cases hrequest
      obtain rfl := List.mem_singleton.mp hrow
      rfl
    · cases hp
  exact ⟨hchange, (one_change_per_version _ hfresh).1 17 1 ⟨1, 0, 1, 1001⟩ hchange⟩

/-- Both requests revalidate before either takes the lock. -/
def changesTwice : List (Label AccountRequest (Choice Fault Decision)) :=
  registers 0 "ada@example.org" "correct horse" ++
    revalidates 1 ⟨1, 0, 1, 1001⟩ "correct horse" "correct horse" ++
    revalidates 2 ⟨1, 0, 1, 1001⟩ "correct horse" "correct horse" ++
    changes 1 "correct horse" 3 ++ changes 2 "correct horse" 4

theorem issues_changesTwice {n : ℕ} (hn : 8 ≤ n) :
    Issues ((accountTrace changesTwice).state n) 0 ⟨1, 0, 1, 1001⟩ :=
  (accountTrace changesTwice).monotone
    (fun cfg cfg' => Issues cfg 0 ⟨1, 0, 1, 1001⟩ → Issues cfg' 0 ⟨1, 0, 1, 1001⟩) (fun _ h => h)
    (fun hab hbc h => hbc (hab h)) (fun _ hs h => h.step hs) hn ⟨_, _, rfl, rfl, rfl⟩

/-- The last of its steps is the commit of the second. -/
theorem changesPassword_changesTwice :
    (accountTrace changesTwice).ChangesPassword 28 2 ⟨1, 0, 1, 1001⟩ := by
  obtain ⟨p, hp, hrequest⟩ : ∃ p, ((accountTrace changesTwice).state 12).procs 2 = some p ∧
      p.request = .changePasswordAction (some ⟨1, 0, 1, 1001⟩) "correct horse" "correct horse"
        "correct horse" := ⟨_, rfl, rfl⟩
  obtain ⟨q, hq, hrequest', -⟩ := (accountTrace changesTwice).proc (by omega : 12 ≤ 28) hp
  -- the kernel evaluates the trace; what the commit was is read off the log
  have hbefore : ((accountTrace changesTwice).state 28).world.log.length = 2 := by decide +kernel
  have hafter : ((accountTrace changesTwice).state (28 + 1)).world.log.map (fun (i, out) =>
      (i, out matches .passwordChanged ..)) = [(2, true), (1, true), (0, false)] := by
    decide +kernel
  rcases (accountTrace changesTwice).log_next 28 with hsame | ⟨i, -, out, -, hcommit⟩
  · have hlength := congrArg List.length hafter
    rw [hsame, List.length_map, hbefore] at hlength
    cases hlength
  · rw [hcommit, List.map_cons] at hafter
    obtain ⟨hhead, -⟩ := List.cons.inj hafter
    obtain ⟨rfl, hout⟩ := Prod.mk.inj hhead
    cases out <;> cases hout
    exact ⟨q, _, _, _, _, _, hq, hrequest'.trans hrequest, hcommit⟩

/-- **Two requests with one cookie both change the password**, where the new one is
the current one. -/
theorem one_change_per_version_violated :
    ¬ ∀ run : AccountRun plainText saltedHash 1000 fun _ _ => True,
      ∀ n i claims, (∃ j, Issues (run.state n) j claims) → run.ChangesPassword n i claims →
        ∃ row, (run.state n).world.row (.user claims.userId) = some row ∧
          row.sessionVersion = claims.sessionVersion := by
  intro h
  obtain ⟨row, hrow, hversion⟩ := h _ 28 2 _ ⟨0, issues_changesTwice (by omega)⟩
    changesPassword_changesTwice
  have hnow : (((accountTrace changesTwice).state 28).world.row (.user 1)).map
      UserModel.sessionVersion = some 1 := by decide +kernel
  rw [hrow] at hnow
  cases hversion.symm.trans (Option.some_inj.mp hnow)

end Lsstack
