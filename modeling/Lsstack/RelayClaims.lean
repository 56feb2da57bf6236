/-
What a claim takes when nothing happens while it runs.

* `Claimable`, `Lists` — the messages a claim may take, oldest first;
* `Claims` — the first of them, up to the limit, are leased and nothing else is changed;
* **`alone_claimBatch`** — a claim takes what it should;
* `strict_claimMessages` — a claim asks nothing of the queue and raises wherever a
  statement does.
-/
import Lsstack.DatabaseAlone
import Lsstack.OutboxProtocol
import Lsstack.SessionRuns

namespace Lsstack

open Concurrency

/-! ### Candidates -/

/-- `created_at`, then `id`. -/
def OutboxMessageModel.age (id : Uuid) (row : OutboxMessageModel) : ℤ ×ₗ ℕ :=
  toLex (row.createdAt, id.toNat)

/-- The message may be claimed: it is eligible, and no other transaction has locked it. -/
def Claimable (now : Instant) (s : DbSession) (id : Uuid) : Prop :=
  (∃ row, s.rows (.message id) = some row ∧ OutboxRepository.eligible now row = true) ∧
    ¬ s.blocked (.message id)

/-- The messages that may be claimed, oldest first. -/
structure Lists (now : Instant) (s : DbSession) (ids : List Uuid) : Prop where
  mem : ∀ id, id ∈ ids ↔ Claimable now s id
  sorted : ids.Pairwise fun a b => ∀ rowA rowB, s.rows (.message a) = some rowA →
    s.rows (.message b) = some rowB → rowA.age a < rowB.age b

theorem Lists.nodup {now : Instant} {s : DbSession} {ids : List Uuid} (h : Lists now s ids) :
    ids.Nodup := by
  refine h.sorted.imp_of_mem fun {a b} ha _ hab heq => ?_
  subst heq
  obtain ⟨⟨row, hrow, -⟩, -⟩ := (h.mem a).mp ha
  exact lt_irrefl _ (hab row row hrow hrow)

/-- There is one list of them. -/
theorem Lists.unique {now : Instant} {s : DbSession} {ids ids' : List Uuid} (h : Lists now s ids)
    (h' : Lists now s ids') : ids = ids' := by
  have hperm : ids.Perm ids' := (List.perm_ext_iff_of_nodup h.nodup h'.nodup).mpr fun id =>
    (h.mem id).trans (h'.mem id).symm
  refine hperm.eq_of_pairwise ?_ h.sorted h'.sorted
  intro a b ha hb hab hba
  -- no two messages are each older than the other
  obtain ⟨⟨rowA, hrowA, -⟩, -⟩ := (h.mem a).mp ha
  obtain ⟨⟨rowB, hrowB, -⟩, -⟩ := (h'.mem b).mp hb
  exact absurd (hab rowA rowB hrowA hrowB) (lt_asymm (hba rowB rowA hrowB hrowA))

/-- The row of a claimed message. -/
def OutboxMessageModel.leased (owner : String) (expiresAt : Instant) (row : OutboxMessageModel) :
    OutboxMessageModel :=
  OutboxRepository.lease owner expiresAt row row

/-- **What a claim takes**: the oldest messages that may be claimed, up to the limit. -/
structure Claims (owner : String) (expiresAt now : Instant) (limit : ℕ) (s : DbSession)
    (claimed : List ClaimedMessage) (rows : (k : Key) → Option (Row k)) : Prop where
  first : ∃ ids, Lists now s ids ∧ claimed.map (·.id) = ids.take limit
  leased : ∀ message ∈ claimed, ∃ row, s.rows (.message message.id) = some row ∧
    message = row.claimedMessage message.id ∧
    rows (.message message.id) = some (row.leased owner expiresAt)
  others : ∀ k, (∀ message ∈ claimed, k ≠ .message message.id) → rows k = s.rows k

section Candidates

variable {s : DbSession} {now : Instant} {l : List ((k : Key) × Row k)}

/-- The ids of a scan of the eligible messages. -/
theorem mem_ids (h : s.Enumerates (OutboxRepository.candidate now) l)
    (id : Uuid) : id ∈ OutboxRepository.ids
        (l.insertionSort fun a b => OutboxRepository.oldestFirst a b = true) ↔
      ∃ row, s.rows (.message id) = some row ∧ OutboxRepository.eligible now row = true := by
  simp only [OutboxRepository.ids, List.mem_filterMap, List.mem_insertionSort, h.2]
  constructor
  · rintro ⟨⟨k, row⟩, ⟨hrow, hcandidate⟩, hid⟩
    cases k with
    | message id' =>
      cases hid
      exact ⟨row, hrow, hcandidate⟩
    | _ => cases hid
  · rintro ⟨row, hrow, heligible⟩
    exact ⟨⟨.message id, row⟩, ⟨hrow, heligible⟩, rfl⟩

/-- By what a scan of messages is ordered. -/
def messageAge : (k : Key) × Row k → ℤ ×ₗ ℕ
  | ⟨.message id, row⟩ => row.age id
  | _ => toLex (0, 0)

theorem oldestFirst_iff (h : s.Enumerates (OutboxRepository.candidate now) l) :
    ∀ a ∈ l, ∀ b ∈ l, OutboxRepository.oldestFirst a b = true ↔ messageAge a ≤ messageAge b := by
  rintro ⟨k, row⟩ ha ⟨k', row'⟩ hb
  have hcandidate := ((h.2 _).mp ha).2
  have hcandidate' := ((h.2 _).mp hb).2
  cases k with
  | message id =>
    cases k' with
    | message id' =>
      simp only [OutboxRepository.oldestFirst, messageAge, OutboxMessageModel.age,
        decide_eq_true_eq, Prod.Lex.le_iff, ofLex_toLex]
    | _ => cases hcandidate'
  | _ => cases hcandidate

/-- They come oldest first. -/
theorem pairwise_ids (h : s.Enumerates (OutboxRepository.candidate now) l) :
    (OutboxRepository.ids
        (l.insertionSort fun a b => OutboxRepository.oldestFirst a b = true)).Pairwise
      fun a b => ∀ rowA rowB, s.rows (.message a) = some rowA →
        s.rows (.message b) = some rowB → rowA.age a < rowB.age b := by
  have hsorted := List.pairwise_map.mp (Session.pairwise_map_insertionSort (oldestFirst_iff h))
  have hnodup : (l.insertionSort fun a b => OutboxRepository.oldestFirst a b = true).Nodup :=
    (List.perm_insertionSort _ l).nodup_iff.mpr h.1
  have hboth := hsorted.and hnodup
  rw [OutboxRepository.ids, List.pairwise_filterMap]
  refine hboth.imp_of_mem ?_
  rintro ⟨k, row⟩ ⟨k', row'⟩ ha hb ⟨hle, hne⟩ id hid id' hid' rowA rowB hA hB
  have hrow := ((h.2 _).mp ((List.mem_insertionSort _).mp ha)).1
  have hrow' := ((h.2 _).mp ((List.mem_insertionSort _).mp hb)).1
  cases k with
  | message =>
    cases k' with
    | message =>
      cases hid
      cases hid'
      obtain rfl := Option.some_inj.mp (hA.symm.trans hrow)
      obtain rfl := Option.some_inj.mp (hB.symm.trans hrow')
      refine lt_of_le_of_ne hle fun heq => hne ?_
      -- two messages of one age are the same
      have hid : id = id' := BitVec.eq_of_toNat_eq (congrArg (fun age => (ofLex age).2) heq)
      subst hid
      rw [Option.some_inj.mp (hA.symm.trans hB)]
    | _ => cases hid'
  | _ => cases hid

end Candidates

/-! ### The claim alone -/

section Alone

variable {answers : (x : Outside) → x.Reply → Prop} {s : DbSession} {now : Instant}

open scoped Classical in
/-- The candidates are locked one after another, but for those of the others. -/
theorem alone_lockRows {ids : List Uuid} (hids : ∀ id ∈ ids, ∃ row,
      s.rows (.message id) = some row ∧ OutboxRepository.eligible now row = true) (limit : ℕ) :
    (OutboxRepository.lockRows now limit ids).Meets (sequential answers) s fun r s' => s' = s ∧
      ∃ models, r = .ok models ∧ (∀ x ∈ models, s.rows (.message x.1) = some x.2) ∧
        models.map (·.1) = (ids.filter fun id => ¬ s.blocked (.message id)).take limit := by
  induction ids generalizing limit with
  | nil =>
    cases limit <;> exact ⟨rfl, [], rfl, nofun, by simp⟩
  | cons id rest ih =>
    cases limit with
    | zero => exact ⟨rfl, [], rfl, nofun, by simp⟩
    | succ limit =>
      obtain ⟨⟨row, hrow, heligible⟩, hrest⟩ := List.forall_mem_cons.mp hids
      refine Program.meets_bind.mpr ?_
      rw [selectForUpdateSkipLocked, perform, meets_perform_sequential]
      rintro v ⟨hfree, hblocked⟩
      by_cases hb : s.blocked (.message id)
      · obtain rfl := hblocked hb
        rw [List.filter_cons_of_neg (by simpa using hb)]
        exact ih hrest (limit + 1)
      · have hv : v = some row := by
          rw [hfree hb, hrow, Option.filter_some, if_pos heligible]
        subst hv
        rw [List.filter_cons_of_pos (by simpa using hb)]
        refine Program.meets_bind.mpr ((ih hrest limit).mono ?_)
        rintro _ _ ⟨rfl, models, rfl, hmodels, hids⟩
        refine ⟨rfl, (id, row) :: models, rfl, List.forall_mem_cons.mpr ⟨hrow, hmodels⟩, ?_⟩
        rw [List.map_cons, hids, List.take_succ_cons]

/-- Each locked row is leased. -/
theorem alone_flushLeases {owner : String} {expiresAt : Instant}
    {models : List (Uuid × OutboxMessageModel)}
    (hmodels : ∀ x ∈ models, s.rows (.message x.1) = some x.2) (hnodup : (models.map (·.1)).Nodup) :
    (OutboxRepository.flushLeases owner expiresAt models).Meets (sequential answers) s fun r s' =>
      r = .ok (models.map fun x => (x.2.leased owner expiresAt).detach x.1) ∧
      (∀ x ∈ models, s'.rows (.message x.1) = some (x.2.leased owner expiresAt)) ∧
      ∀ k, (∀ x ∈ models, k ≠ .message x.1) → s'.rows k = s.rows k := by
  induction models generalizing s with
  | nil => exact ⟨rfl, nofun, fun _ _ => rfl⟩
  | cons x rest ih =>
    obtain ⟨id, row⟩ := x
    obtain ⟨hrow, hrest⟩ := List.forall_mem_cons.mp hmodels
    obtain ⟨hfresh, hnodup'⟩ := List.nodup_cons.mp hnodup
    have hne : ∀ x ∈ rest, Key.message x.1 ≠ .message id := by
      rintro x hx heq
      cases heq
      exact hfresh (List.mem_map.mpr ⟨x, hx, rfl⟩)
    refine Program.meets_bind.mpr (alone_update hrow rfl ?_)
    have hkept : ∀ x ∈ rest, (s.put (.message id) (some (OutboxRepository.lease owner expiresAt row
        row))).rows (.message x.1) = some x.2 :=
      fun x hx => (Session.put_rows_of_ne _ (hne x hx) _).trans (hrest x hx)
    refine Program.meets_bind.mpr ((ih hkept hnodup').mono ?_)
    rintro _ s' ⟨rfl, hleased, hothers⟩
    refine ⟨rfl, List.forall_mem_cons.mpr ⟨?_, hleased⟩, fun k hk => ?_⟩
    · rw [hothers _ fun x hx => (hne x hx).symm]
      exact Session.put_rows_self _ _ _
    · obtain ⟨hid, hk⟩ := List.forall_mem_cons.mp hk
      exact (hothers k hk).trans (Session.put_rows_of_ne _ hid _)

open scoped Classical in
/-- **A claim takes the oldest messages that may be claimed.** -/
theorem alone_claimBatch {owner : String} {expiresAt : Instant} {limit : ℕ} :
    (OutboxRepository.claimBatch owner now expiresAt limit).Meets (sequential answers) s fun r s' =>
      ∃ messages, r = .ok messages ∧ Claims owner expiresAt now limit s
        (messages.map fun message : OutboxMessage =>
          ⟨message.id, message.topic, message.payload, message.attemptCount⟩) s'.rows := by
  refine Program.meets_bind.mpr (alone_scan fun l hl => ?_)
  have hmem := mem_ids hl
  have hsorted := pairwise_ids hl
  show ((OutboxRepository.lockRows now limit (OutboxRepository.ids _)).bind _).Meets _ s _
  generalize OutboxRepository.ids
    (l.insertionSort fun a b => OutboxRepository.oldestFirst a b = true) = ids at hmem hsorted ⊢
  -- no candidate comes twice, since the order is strict
  have hnodup : ids.Nodup := by
    refine hsorted.imp_of_mem fun {a b} ha _ hab heq => ?_
    subst heq
    obtain ⟨row, hrow, -⟩ := (hmem a).mp ha
    exact lt_irrefl _ (hab row row hrow hrow)
  refine Program.meets_bind.mpr
    ((alone_lockRows (fun id hid => (hmem id).mp hid) limit).mono ?_)
  rintro _ s₁ ⟨hs, models, rfl, hmodels, hids⟩
  subst hs
  -- so each row is locked and leased once
  have hnodup' : (models.map (·.1)).Nodup := by
    rw [hids]
    exact (hnodup.filter _).sublist (List.take_sublist _ _)
  refine (alone_flushLeases hmodels hnodup').mono ?_
  rintro _ s' ⟨rfl, hleased, hothers⟩
  refine ⟨_, rfl, ⟨ids.filter fun id => ¬ s₁.blocked (.message id),
    ⟨fun id => ?_, hsorted.filter _⟩, ?_⟩, ?_, fun k hk => hothers k ?_⟩
  · rw [List.mem_filter, hmem, Claimable, decide_eq_true_eq]
  · rw [← hids, List.map_map, List.map_map]
    rfl
  · intro message hmessage
    obtain ⟨_, hdetached, rfl⟩ := List.mem_map.mp hmessage
    obtain ⟨x, hx, rfl⟩ := List.mem_map.mp hdetached
    exact ⟨x.2, hmodels x hx, rfl, hleased x hx⟩
  · intro x hx heq
    exact hk _ (List.mem_map.mpr ⟨_, List.mem_map.mpr ⟨x, hx, rfl⟩, rfl⟩) heq

/-- The arguments of a claim that are refused. -/
def Refused (owner : String) (leaseDuration : Duration) (limit : ℕ) : Prop :=
  owner = "" ∨ leaseDuration ≤ 0 ∨ limit < 1 ∨ limit > 1000

/-- A claim checks its arguments before anything else. -/
theorem claimMessages_refused {owner : String} {leaseDuration : Duration} {limit : ℕ}
    (h : Refused owner leaseDuration limit) :
    ∃ message, claimMessages owner leaseDuration limit = .raise (.valueError message) := by
  unfold claimMessages
  split
  · exact ⟨_, rfl⟩
  split
  · exact ⟨_, rfl⟩
  split
  · exact ⟨_, rfl⟩
  · rename_i howner hlease hlimit
    obtain h | h | h := h
    · exact absurd h howner
    · exact absurd h hlease
    · exact absurd h hlimit

/-- What an accepted claim runs. -/
theorem claimMessages_accepted {owner : String} {leaseDuration : Duration} {limit : ℕ}
    (h : ¬ Refused owner leaseDuration limit) :
    claimMessages owner leaseDuration limit = (call .now).bind fun t =>
      (OutboxRepository.claimBatch owner t (t + leaseDuration) limit).bind fun claimed =>
        .ret (claimed.map fun message =>
          ⟨message.id, message.topic, message.payload, message.attemptCount⟩) := by
  obtain ⟨howner, hlease, hlow, hhigh⟩ : owner ≠ "" ∧ ¬ leaseDuration ≤ 0 ∧ ¬ limit < 1 ∧
      ¬ limit > 1000 := by
    simpa only [Refused, not_or] using h
  rw [claimMessages, if_neg howner, if_neg hlease, if_neg (by omega)]
  rfl

end Alone

/-! ### Its statements -/

/-- The statements of a claim; none of them talks to the queue or ends the transaction. -/
def InClaim : Command → Prop
  | .ext .now => True
  | .scan _ _ => True
  | .tryLock _ _ => True
  | .update _ _ _ => True
  | _ => False

section Statements

variable {kind : Command → Prop} {owner : String} {leaseDuration : Duration} {limit : ℕ}
  {now expiresAt : Instant}

theorem strict_lockRows (hlock : ∀ id p, kind (.tryLock (.message id) p)) (ids : List Uuid) :
    (OutboxRepository.lockRows now limit ids).Strict kind := by
  induction ids generalizing limit with
  | nil => cases limit <;> trivial
  | cons id rest ih =>
    cases limit with
    | zero => trivial
    | succ limit =>
      refine (Program.strict_perform (hlock _ _)).bind fun model => ?_
      cases model with
      | none => exact ih
      | some model => exact ih.bind fun _ => trivial

theorem strict_flushLeases (hupdate : ∀ id model, kind (.update (.message id) (fun _ => true)
      (OutboxRepository.lease owner expiresAt model))) (models : List (Uuid × OutboxMessageModel)) :
    (OutboxRepository.flushLeases owner expiresAt models).Strict kind := by
  induction models with
  | nil => trivial
  | cons x rest ih =>
    refine (Program.strict_perform (hupdate _ _)).bind fun row => ?_
    cases row with
    | none => trivial
    | some row => exact ih.bind fun _ => trivial

/-- The statements of a claim, and that it raises wherever one does. -/
theorem strict_claimMessages_of (hnow : kind (.ext .now)) (hscan : ∀ p le, kind (.scan p le))
    (hlock : ∀ id p, kind (.tryLock (.message id) p))
    (hupdate : ∀ expiresAt id model, kind (.update (.message id) (fun _ => true)
      (OutboxRepository.lease owner expiresAt model))) :
    (claimMessages owner leaseDuration limit).Strict kind := by
  by_cases h : Refused owner leaseDuration limit
  · obtain ⟨message, hraise⟩ := claimMessages_refused h
    rw [hraise]
    trivial
  · rw [claimMessages_accepted h]
    refine (Program.strict_perform hnow).bind fun t => Program.Strict.bind ?_ fun _ => trivial
    refine (Program.strict_perform (hscan _ _)).bind fun rows => ?_
    exact (strict_lockRows hlock _).bind fun models => strict_flushLeases (hupdate _) models

end Statements

theorem strict_claimBatch (owner : String) (now expiresAt : Instant) (limit : ℕ) :
    (OutboxRepository.claimBatch owner now expiresAt limit).Strict InClaim := by
  refine (Program.strict_perform trivial).bind fun rows => ?_
  exact (strict_lockRows (fun _ _ => trivial) _).bind fun models =>
    strict_flushLeases (fun _ _ => trivial) models

/-- **A claim asks nothing of the queue**, and raises wherever a statement does. -/
theorem strict_claimMessages (owner : String) (leaseDuration : Duration) (limit : ℕ) :
    (claimMessages owner leaseDuration limit).Strict InClaim :=
  strict_claimMessages_of trivial (fun _ _ => trivial) (fun _ _ => trivial) fun _ _ _ => trivial

end Lsstack
