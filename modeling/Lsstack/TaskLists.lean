/-
The tasks of a user, newest first.

`list_owned` orders by creation time and then by id, both descending.  Ids are unique, so
there is one such list.

* `Listed` — the ids of a user's tasks in that order;
* **`Listed.unique`** — there is one list;
* `Listed.congr`, `Listed.cons`, `Listed.erase` — what the writes of tasks do to it;
* **`listed_scan`** — what the query of `list_owned` returns.
-/
import Lsstack.Seeding
import Lsstack.TaskRaces

namespace Lsstack

open Concurrency

/-- `created_at`, then `id`. -/
def TaskModel.age (id : ℕ) (row : TaskModel) : ℤ ×ₗ ℕ := toLex (row.createdAt, id)

/-- The tasks of a user, newest first. -/
structure Listed (rows : Rows) (userId : ℕ) (ids : List ℕ) : Prop where
  mem : ∀ id, id ∈ ids ↔ ∃ row, rows (.task id) = some row ∧ row.userId = userId
  sorted : ids.Pairwise fun a b => ∀ rowA rowB, rows (.task a) = some rowA →
    rows (.task b) = some rowB → rowB.age b < rowA.age a

/-- The columns of a task that its place in the list depends on. -/
def TaskModel.place (row : TaskModel) : ℕ × Instant := (row.userId, row.createdAt)

namespace Listed

variable {rows rows' : Rows} {userId id : ℕ} {ids ids' : List ℕ}

theorem nodup (h : Listed rows userId ids) : ids.Nodup := by
  refine h.sorted.imp_of_mem fun {a b} ha _ hab heq => ?_
  subst heq
  obtain ⟨row, hrow, -⟩ := (h.mem a).mp ha
  exact lt_irrefl _ (hab row row hrow hrow)

/-- **There is one list of them.** -/
theorem unique (h : Listed rows userId ids) (h' : Listed rows userId ids') : ids = ids' := by
  have hperm : ids.Perm ids' := (List.perm_ext_iff_of_nodup h.nodup h'.nodup).mpr fun id =>
    (h.mem id).trans (h'.mem id).symm
  refine hperm.eq_of_pairwise ?_ h.sorted h'.sorted
  intro a b ha hb hab hba
  -- no two tasks are each newer than the other
  obtain ⟨rowA, hrowA, -⟩ := (h.mem a).mp ha
  obtain ⟨rowB, hrowB, -⟩ := (h'.mem b).mp hb
  exact absurd (hab rowA rowB hrowA hrowB) (lt_asymm (hba rowB rowA hrowB hrowA))

/-- Where the place is the same, there is a task with it. -/
theorem place_back (hplace : (rows' (.task id)).map TaskModel.place =
      (rows (.task id)).map TaskModel.place) {row' : TaskModel}
    (hrow' : rows' (.task id) = some row') :
    ∃ row, rows (.task id) = some row ∧ row.userId = row'.userId ∧
      row.createdAt = row'.createdAt := by
  rw [hrow', Option.map_some] at hplace
  obtain ⟨row, hrow, hplace⟩ := Option.map_eq_some_iff.mp hplace.symm
  exact ⟨row, hrow, congrArg Prod.fst hplace, congrArg Prod.snd hplace⟩

/-- Two lists are ordered alike where the places of their tasks are. -/
theorem pairwise_congr (hplaces : ∀ id ∈ ids,
      (rows' (.task id)).map TaskModel.place = (rows (.task id)).map TaskModel.place)
    (h : ids.Pairwise fun a b => ∀ rowA rowB, rows (.task a) = some rowA →
      rows (.task b) = some rowB → rowB.age b < rowA.age a) :
    ids.Pairwise fun a b => ∀ rowA rowB, rows' (.task a) = some rowA →
      rows' (.task b) = some rowB → rowB.age b < rowA.age a := by
  refine h.imp_of_mem fun {a b} ha hb hab rowA' rowB' hrowA' hrowB' => ?_
  obtain ⟨rowA, hrowA, -, hcreatedA⟩ := place_back (hplaces a ha) hrowA'
  obtain ⟨rowB, hrowB, -, hcreatedB⟩ := place_back (hplaces b hb) hrowB'
  have hlt := hab rowA rowB hrowA hrowB
  rw [TaskModel.age, TaskModel.age, hcreatedA, hcreatedB] at hlt
  exact hlt

theorem owned_congr (hplace : (rows' (.task id)).map TaskModel.place =
      (rows (.task id)).map TaskModel.place) :
    (∃ row, rows (.task id) = some row ∧ row.userId = userId) ↔
      ∃ row, rows' (.task id) = some row ∧ row.userId = userId := by
  constructor
  · rintro ⟨row, hrow, rfl⟩
    obtain ⟨row', hrow', howner, -⟩ := place_back hplace.symm hrow
    exact ⟨row', hrow', howner⟩
  · rintro ⟨row', hrow', rfl⟩
    obtain ⟨row, hrow, howner, -⟩ := place_back hplace hrow'
    exact ⟨row, hrow, howner⟩

/-- It depends on owners and creation times only. -/
theorem congr (h : Listed rows userId ids) (hplaces : ∀ id,
      (rows' (.task id)).map TaskModel.place = (rows (.task id)).map TaskModel.place) :
    Listed rows' userId ids where
  mem := fun id => (h.mem id).trans (owned_congr (hplaces id))
  sorted := pairwise_congr (fun id _ => hplaces id) h.sorted

/-- A new task comes first. -/
theorem cons (h : Listed rows userId ids) {new : TaskModel} (hnew : rows' (.task id) = some new)
    (howner : new.userId = userId) (hfree : rows (.task id) = none)
    (hplaces : ∀ id', id' ≠ id →
      (rows' (.task id')).map TaskModel.place = (rows (.task id')).map TaskModel.place)
    (hnewest : ∀ id' row, rows (.task id') = some row → row.userId = userId →
      row.createdAt ≤ new.createdAt ∧ id' < id) : Listed rows' userId (id :: ids) where
  mem := by
    intro id'
    rw [List.mem_cons]
    by_cases hid : id' = id
    · subst hid
      exact ⟨fun _ => ⟨new, hnew, howner⟩, fun _ => .inl rfl⟩
    · rw [h.mem, owned_congr (hplaces id' hid)]
      exact ⟨fun hor => hor.resolve_left hid, .inr⟩
  sorted := by
    have hne : ∀ id' ∈ ids, id' ≠ id := by
      rintro id' hmem rfl
      obtain ⟨row, hrow, -⟩ := (h.mem id').mp hmem
      cases hrow.symm.trans hfree
    refine List.pairwise_cons.mpr ⟨fun b hb rowA rowB hrowA hrowB => ?_,
      pairwise_congr (fun id' hmem => hplaces id' (hne id' hmem)) h.sorted⟩
    obtain rfl := Option.some_inj.mp (hnew.symm.trans hrowA)
    obtain ⟨row, hrow, hmine⟩ := (h.mem b).mp hb
    obtain ⟨row', hrow', -, hcreated⟩ := place_back (hplaces b (hne b hb)) hrowB
    obtain rfl := Option.some_inj.mp (hrow.symm.trans hrow')
    obtain ⟨hle, hlt⟩ := hnewest b row hrow hmine
    rw [TaskModel.age, TaskModel.age, Prod.Lex.lt_iff]
    rw [hcreated] at hle
    exact (lt_or_eq_of_le hle).imp_right fun heq => ⟨heq, hlt⟩

/-- A deleted task leaves its place. -/
theorem erase (h : Listed rows userId ids) (hgone : rows' (.task id) = none)
    (hplaces : ∀ id', id' ≠ id →
      (rows' (.task id')).map TaskModel.place = (rows (.task id')).map TaskModel.place) :
    Listed rows' userId (ids.erase id) where
  mem := by
    intro id'
    rw [h.nodup.mem_erase_iff, h.mem]
    by_cases hid : id' = id
    · subst hid
      refine ⟨fun hmem => absurd rfl hmem.1, ?_⟩
      rintro ⟨row, hrow, -⟩
      cases hrow.symm.trans hgone
    · rw [owned_congr (hplaces id' hid)]
      exact ⟨fun hmem => hmem.2, fun howned => ⟨hid, howned⟩⟩
  sorted := by
    refine pairwise_congr (fun id' hmem => hplaces id' ?_) (h.sorted.sublist List.erase_sublist)
    exact (h.nodup.mem_erase_iff.mp hmem).1

end Listed

/-! ### The query -/

section Query

variable {s : DbSession} {userId : ℕ} {l : List ((k : Key) × Row k)}

/-- The tasks among the rows of a scan, with their ids. -/
def listedTasks (rows : List ((k : Key) × Row k)) : List (ℕ × TaskModel) :=
  rows.filterMap fun
    | ⟨.task id, row⟩ => some (id, row)
    | _ => none

theorem tasks_eq (rows : List ((k : Key) × Row k)) :
    TaskRepository.tasks rows = (listedTasks rows).map fun task => task.2.detach task.1 := by
  rw [TaskRepository.tasks, listedTasks, List.map_filterMap]
  refine List.filterMap_congr ?_
  rintro ⟨k, row⟩ -
  cases k <;> rfl

/-- By what a scan of tasks is ordered. -/
def taskAge : (k : Key) × Row k → (ℤ ×ₗ ℕ)ᵒᵈ
  | ⟨.task id, row⟩ => OrderDual.toDual (row.age id)
  | _ => OrderDual.toDual (toLex (0, 0))

theorem newestFirst_iff (h : s.Enumerates (TaskRepository.ownedBy userId) l) :
    ∀ a ∈ l, ∀ b ∈ l, TaskRepository.newestFirst a b = true ↔ taskAge a ≤ taskAge b := by
  rintro ⟨k, row⟩ ha ⟨k', row'⟩ hb
  have howned := ((h.2 _).mp ha).2
  have howned' := ((h.2 _).mp hb).2
  cases k with
  | task id =>
    cases k' with
    | task id' =>
      simp only [TaskRepository.newestFirst, taskAge, TaskModel.age, decide_eq_true_eq,
        OrderDual.toDual_le_toDual, Prod.Lex.le_iff, ofLex_toLex]
    | _ => cases howned'
  | _ => cases howned

theorem mem_listedTasks (h : s.Enumerates (TaskRepository.ownedBy userId) l)
    (task : ℕ × TaskModel) :
    task ∈ listedTasks (l.insertionSort fun a b => TaskRepository.newestFirst a b = true) ↔
      s.rows (.task task.1) = some task.2 ∧ task.2.userId = userId := by
  simp only [listedTasks, List.mem_filterMap, List.mem_insertionSort, h.2]
  constructor
  · rintro ⟨⟨k, row⟩, ⟨hrow, howned⟩, htask⟩
    cases k with
    | task id =>
      cases htask
      exact ⟨hrow, beq_iff_eq.mp howned⟩
    | _ => cases htask
  · rintro ⟨hrow, howner⟩
    exact ⟨⟨.task task.1, task.2⟩, ⟨hrow, beq_iff_eq.mpr howner⟩, rfl⟩

/-- **What the query returns.** -/
theorem listed_scan (h : s.Enumerates (TaskRepository.ownedBy userId) l) :
    Listed s.rows userId ((listedTasks
      (l.insertionSort fun a b => TaskRepository.newestFirst a b = true)).map Prod.fst) where
  mem := by
    intro id
    rw [List.mem_map]
    constructor
    · rintro ⟨task, hmem, rfl⟩
      exact ⟨task.2, (mem_listedTasks h task).mp hmem⟩
    · rintro ⟨row, hrow⟩
      exact ⟨(id, row), (mem_listedTasks h (id, row)).mpr hrow, rfl⟩
  sorted := by
    have hsorted := List.pairwise_map.mp (Session.pairwise_map_insertionSort (newestFirst_iff h))
    have hnodup : (l.insertionSort fun a b => TaskRepository.newestFirst a b = true).Nodup :=
      (List.perm_insertionSort _ l).nodup_iff.mpr h.1
    rw [List.pairwise_map, listedTasks, List.pairwise_filterMap]
    refine (hsorted.and hnodup).imp_of_mem ?_
    rintro ⟨k, row⟩ ⟨k', row'⟩ ha hb ⟨hle, hne⟩ task htask task' htask' rowA rowB hA hB
    have hrow := ((h.2 _).mp ((List.mem_insertionSort _).mp ha)).1
    have hrow' := ((h.2 _).mp ((List.mem_insertionSort _).mp hb)).1
    cases k with
    | task id =>
      cases k' with
      | task id' =>
        cases htask
        cases htask'
        have hrowA : rowA = row := Option.some_inj.mp (hA.symm.trans hrow)
        have hrowB : rowB = row' := Option.some_inj.mp (hB.symm.trans hrow')
        rw [hrowA, hrowB]
        refine lt_of_le_of_ne (OrderDual.toDual_le_toDual.mp hle) fun heq => hne ?_
        -- two tasks of one age are the same
        have hid : id' = id := congrArg (fun age => (ofLex age).2) heq
        subst hid
        have hsame : row = row' := Option.some_inj.mp (hrow.symm.trans hrow')
        rw [hsame]
      | _ => cases htask'
    | _ => cases htask

end Query

end Lsstack
