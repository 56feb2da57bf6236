/-
Serving the oldest first, a bounded number at a time.

In every round at most `capacity` jobs are served, the oldest of those that are available.
A job that has been served rests for some rounds; then it comes back if it is a failing
one, and no other does.

* `Rounds` — such a history, undisturbed from the round `settled` on;
* `Rounds.starves` — a job behind too many failing ones is never served;
* `Rounds.card_ahead` — a job that is never served, though all older ones have had their
  turn, is behind too many failing ones;
* **`Rounds.all_served_iff`** — when nobody starves.
-/
import Mathlib

namespace Backoff

open scoped Classical

variable {J A : Type} [LinearOrder A]

/-- The job may be served in round `n`, after the rounds before. -/
def Available (served : ℕ → Finset J) (failing : J → Prop) (rest n : ℕ) (j : J) : Prop :=
  (¬ failing j → ∀ m < n, j ∉ served m) ∧ ∀ m < n, j ∈ served m → m + rest ≤ n

/-- A history of service. -/
structure Rounds (J A : Type) [LinearOrder A] where
  jobs : Finset J
  age : J → A
  failing : J → Prop
  capacity : ℕ
  rest : ℕ
  rest_pos : 0 < rest
  settled : ℕ
  served : ℕ → Finset J
  mem_jobs : ∀ {n j}, j ∈ served n → j ∈ jobs
  card_le : ∀ n, (served n).card ≤ capacity
  available : ∀ {n j}, j ∈ served n → Available served failing rest n j
  oldest : ∀ {n j}, settled ≤ n → j ∈ jobs → Available served failing rest n j →
    j ∉ served n → (served n).card = capacity ∧ ∀ i ∈ served n, age i < age j

namespace Rounds

variable (r : Rounds J A)

/-- The failing jobs that are older. -/
noncomputable def ahead (j : J) : Finset J :=
  r.jobs.filter fun i => r.failing i ∧ r.age i < r.age j

theorem mem_ahead {i j : J} :
    i ∈ r.ahead j ↔ i ∈ r.jobs ∧ r.failing i ∧ r.age i < r.age j := by
  rw [ahead, Finset.mem_filter]

/-- The jobs that rest in round `n`. -/
noncomputable def resting (n : ℕ) : Finset J :=
  ((Finset.range n).filter fun m => n < m + r.rest).biUnion r.served

theorem mem_resting {n : ℕ} {j : J} :
    j ∈ r.resting n ↔ ∃ m < n, n < m + r.rest ∧ j ∈ r.served m := by
  simp [resting, and_assoc]

/-- They are those of the last `rest - 1` rounds. -/
theorem card_resting_le (n : ℕ) : (r.resting n).card ≤ (r.rest - 1) * r.capacity := by
  have hrounds : ((Finset.range n).filter fun m => n < m + r.rest).card ≤ r.rest - 1 := by
    have hsub : ((Finset.range n).filter fun m => n < m + r.rest) ⊆
        Finset.Ico (n + 1 - r.rest) n := by
      intro m hm
      rw [Finset.mem_filter, Finset.mem_range] at hm
      rw [Finset.mem_Ico]
      omega
    have hcard := Finset.card_le_card hsub
    have hpos := r.rest_pos
    rw [Nat.card_Ico] at hcard
    omega
  calc (r.resting n).card
      ≤ ((Finset.range n).filter fun m => n < m + r.rest).card * r.capacity :=
        Finset.card_biUnion_le_card_mul _ _ _ fun m _ => r.card_le m
    _ ≤ (r.rest - 1) * r.capacity := Nat.mul_le_mul_right _ hrounds

/-- **A job behind too many failing ones is never served.** -/
theorem starves {j : J} (hbefore : ∀ n < r.settled, j ∉ r.served n)
    (hahead : r.capacity * r.rest ≤ (r.ahead j).card) (n : ℕ) : j ∉ r.served n := by
  intro hj
  have hn : r.settled ≤ n := by
    by_contra hlt
    exact hbefore n (not_le.mp hlt) hj
  -- whoever is ahead and does not rest is served before it
  have hsub : r.ahead j \ r.resting n ⊆ (r.served n).erase j := by
    intro i hi
    obtain ⟨hi, hresting⟩ := Finset.mem_sdiff.mp hi
    obtain ⟨hjob, hfailing, hage⟩ := r.mem_ahead.mp hi
    refine Finset.mem_erase.mpr ⟨fun heq => ?_, ?_⟩
    · rw [heq] at hage
      exact lt_irrefl _ hage
    · by_contra hi
      have havailable : Available r.served r.failing r.rest n i := by
        refine ⟨fun h => absurd hfailing h, fun m hm hserved => ?_⟩
        by_contra hrest
        exact hresting (r.mem_resting.mpr ⟨m, hm, not_le.mp hrest, hserved⟩)
      exact lt_asymm hage ((r.oldest hn hjob havailable hi).2 j hj)
  have hcard := Finset.card_le_card hsub
  have hsplit := Finset.le_card_sdiff (r.resting n) (r.ahead j)
  have hresting := r.card_resting_le n
  have hserved := r.card_le n
  have hpos := Finset.card_pos.mpr ⟨j, hj⟩
  rw [Finset.card_erase_of_mem hj] at hcard
  obtain ⟨p, hp⟩ : ∃ p, r.rest = p + 1 := ⟨r.rest - 1, by have := r.rest_pos; omega⟩
  rw [hp, Nat.mul_succ] at hahead
  rw [hp, Nat.add_sub_cancel, Nat.mul_comm] at hresting
  omega

/-- **A job that is never served**, though every older one that does not fail is served at
some time, is behind many failing ones. -/
theorem card_ahead {j : J} (hjob : j ∈ r.jobs) (hnever : ∀ n, j ∉ r.served n)
    (holder : ∀ i ∈ r.jobs, ¬ r.failing i → r.age i < r.age j → ∃ n, i ∈ r.served n) :
    r.capacity * r.rest ≤ (r.ahead j).card := by
  have hturn : ∀ i, ∃ n, i ∈ r.jobs → ¬ r.failing i → r.age i < r.age j → i ∈ r.served n := by
    intro i
    by_cases h : i ∈ r.jobs ∧ ¬ r.failing i ∧ r.age i < r.age j
    · obtain ⟨n, hn⟩ := holder i h.1 h.2.1 h.2.2
      exact ⟨n, fun _ _ _ => hn⟩
    · exact ⟨0, fun h₁ h₂ h₃ => absurd ⟨h₁, h₂, h₃⟩ h⟩
  choose turn hturn using hturn
  -- from some round on only failing jobs are served before it
  let late := max r.settled (r.jobs.sup turn + 1)
  have hfull : ∀ n, late ≤ n → (r.served n).card = r.capacity ∧ r.served n ⊆ r.ahead j := by
    intro n hn
    have havailable : Available r.served r.failing r.rest n j :=
      ⟨fun _ m _ => hnever m, fun m _ h => absurd h (hnever m)⟩
    obtain ⟨hcard, hages⟩ := r.oldest ((le_max_left _ _).trans hn) hjob havailable (hnever n)
    refine ⟨hcard, fun i hi => r.mem_ahead.mpr ⟨r.mem_jobs hi, ?_, hages i hi⟩⟩
    by_contra hi'
    have hserved := hturn i (r.mem_jobs hi) hi' (hages i hi)
    have hle : turn i ≤ r.jobs.sup turn := Finset.le_sup (f := turn) (r.mem_jobs hi)
    have hlate : r.jobs.sup turn + 1 ≤ n := (le_max_right _ _).trans hn
    exact (r.available hi).1 hi' (turn i) (by omega) hserved
  -- and no job comes twice within `rest` rounds
  have hdisjoint : ((Finset.range r.rest : Finset ℕ) : Set ℕ).PairwiseDisjoint
      fun m => r.served (late + m) := by
    have hlt : ∀ {m m' i}, m < m' → m' < r.rest → i ∈ r.served (late + m) →
        i ∉ r.served (late + m') := by
      intro m m' i hm hm' hi hi'
      have hrest := (r.available hi').2 (late + m) (by omega) hi
      omega
    intro m hm m' hm' hne
    rw [Finset.mem_coe, Finset.mem_range] at hm hm'
    refine Finset.disjoint_left.mpr fun i hi hi' => ?_
    rcases Nat.lt_or_gt_of_ne hne with h | h
    · exact hlt h hm' hi hi'
    · exact hlt h hm hi' hi
  calc r.capacity * r.rest = ∑ _m ∈ Finset.range r.rest, r.capacity := by
        rw [Finset.sum_const_nat fun _ _ => rfl, Finset.card_range, Nat.mul_comm]
    _ = ∑ m ∈ Finset.range r.rest, (r.served (late + m)).card :=
        Finset.sum_congr rfl fun m _ => (hfull (late + m) (Nat.le_add_right _ _)).1.symm
    _ = ((Finset.range r.rest).biUnion fun m => r.served (late + m)).card :=
        (Finset.card_biUnion hdisjoint).symm
    _ ≤ (r.ahead j).card := Finset.card_le_card
        (Finset.biUnion_subset.mpr fun m _ => (hfull (late + m) (Nat.le_add_right _ _)).2)

/-- **Every job that does not fail is served**, exactly if none of those that are left when
the rounds have settled is behind `capacity * rest` failing ones. -/
theorem all_served_iff :
    (∀ j ∈ r.jobs, ¬ r.failing j → ∃ n, j ∈ r.served n) ↔
    ∀ j ∈ r.jobs, ¬ r.failing j → (∀ n < r.settled, j ∉ r.served n) →
      (r.ahead j).card < r.capacity * r.rest := by
  constructor
  · intro h j hjob hfailing hbefore
    obtain ⟨n, hn⟩ := h j hjob hfailing
    by_contra hmany
    exact r.starves hbefore (not_lt.mp hmany) n hn
  · intro h
    by_contra hsome
    push Not at hsome
    let never := r.jobs.filter fun j => ¬ r.failing j ∧ ∀ n, j ∉ r.served n
    obtain ⟨j₀, hjob₀, hfailing₀, hnever₀⟩ := hsome
    have hnonempty : never.Nonempty := ⟨j₀, Finset.mem_filter.mpr ⟨hjob₀, hfailing₀, hnever₀⟩⟩
    -- the oldest of those that are never served
    obtain ⟨j, hj, hmin⟩ := Finset.exists_min_image never r.age hnonempty
    obtain ⟨hjob, hfailing, hnever⟩ := Finset.mem_filter.mp hj
    refine absurd (h j hjob hfailing fun n _ => hnever n) (not_lt.mpr ?_)
    refine r.card_ahead hjob hnever fun i hi hi' hage => ?_
    by_contra hunserved
    push Not at hunserved
    exact not_le.mpr hage (hmin i (Finset.mem_filter.mpr ⟨hi, hi', hunserved⟩))

end Rounds

end Backoff
