/-
Dictionaries that keep the order of insertion, as lists of values that know their key.

* `get_set` — assignment;
* `get_update` — the assignments of a list of values, one after another;
* `get_erase` — removal;
* `mem_iff_get` — where the keys are distinct, the values are what is found.
-/
import Mathlib

namespace Dictionary

variable {κ α : Type} [DecidableEq κ] {key : α → κ} {values updates : List α} {a : α} {k : κ}

/-- `values.get(k)`. -/
def get (key : α → κ) (values : List α) (k : κ) : Option α := values.find? fun a => key a = k

/-- `values[key a] = a`. -/
def set (key : α → κ) (values : List α) (a : α) : List α :=
  if key a ∈ values.map key then values.map fun b => if key b = key a then a else b
  else values ++ [a]

/-- `values.update({key a: a for a in updates})`. -/
def update (key : α → κ) (values updates : List α) : List α := updates.foldl (set key) values

/-- `values.pop(k, None)`. -/
def erase (key : α → κ) (values : List α) (k : κ) : List α := values.filter fun a => key a ≠ k

theorem get_eq_none : get key values k = none ↔ k ∉ values.map key := by
  rw [get, List.find?_eq_none]
  simp

theorem key_of_get (h : get key values k = some a) : key a = k := by
  simpa using List.find?_some h

theorem mem_of_get (h : get key values k = some a) : a ∈ values := List.mem_of_find?_eq_some h

/-- **Assignment** changes what is found under one key. -/
theorem get_set :
    get key (set key values a) k = if k = key a then some a else get key values k := by
  unfold set
  split
  -- the value is replaced where it stands
  · rename_i hmem
    have hkey : ∀ b, (key (if key b = key a then a else b) = k) = (key b = k) := by
      intro b
      split
      · rename_i hb
        rw [hb]
      · rfl
    rw [get, List.find?_map]
    simp only [Function.comp_def, hkey]
    split
    · rename_i hk
      subst hk
      obtain ⟨b, hb⟩ := Option.ne_none_iff_exists'.mp (mt get_eq_none.mp (not_not.mpr hmem))
      rw [get] at hb
      rw [hb, Option.map_some, if_pos (key_of_get hb)]
    · rename_i hk
      rw [get]
      cases hb : values.find? fun b => decide (key b = k) with
      | none => rfl
      | some b =>
        rw [Option.map_some, if_neg]
        rw [key_of_get hb]
        exact hk
  -- the value is appended, under a key that is new
  · rename_i hmem
    rw [get, List.find?_append]
    split
    · rename_i hk
      subst hk
      have hnone : values.find? (fun b => decide (key b = key a)) = none := get_eq_none.mpr hmem
      rw [hnone]
      simp
    · rename_i hk
      have hother : [a].find? (fun b => decide (key b = k)) = none := by
        simp [Ne.symm hk]
      rw [hother, Option.or_none]
      rfl

theorem mem_set {b : α} (h : b ∈ set key values a) : b = a ∨ b ∈ values := by
  unfold set at h
  split at h
  · obtain ⟨c, hc, rfl⟩ := List.mem_map.mp h
    split
    · exact .inl rfl
    · exact .inr hc
  · rcases List.mem_append.mp h with h | h
    · exact .inr h
    · exact .inl (List.mem_singleton.mp h)

theorem mem_update {b : α} (h : b ∈ update key values updates) : b ∈ updates ∨ b ∈ values := by
  induction updates generalizing values with
  | nil => exact .inr h
  | cons a updates ih =>
    rcases ih h with h | h
    · exact .inl (List.mem_cons_of_mem _ h)
    · rcases mem_set h with rfl | h
      · exact .inl List.mem_cons_self
      · exact .inr h

theorem map_key_set : (set key values a).map key =
    if key a ∈ values.map key then values.map key else values.map key ++ [key a] := by
  unfold set
  split
  · rw [List.map_map]
    refine List.map_congr_left fun b _ => ?_
    rw [Function.comp_apply]
    split
    · rename_i hb
      exact hb.symm
    · rfl
  · rw [List.map_append]
    rfl

theorem nodup_set (h : (values.map key).Nodup) : ((set key values a).map key).Nodup := by
  rw [map_key_set]
  split
  · exact h
  · rename_i hmem
    refine h.append (List.nodup_singleton _) ?_
    exact List.disjoint_singleton.mpr hmem

theorem nodup_update (h : (values.map key).Nodup) :
    ((update key values updates).map key).Nodup := by
  induction updates generalizing values with
  | nil => exact h
  | cons a updates ih => exact ih (nodup_set h)

/-- **A list of assignments** under distinct keys. -/
theorem get_update (h : (updates.map key).Nodup) :
    get key (update key values updates) k = (get key updates k).or (get key values k) := by
  induction updates generalizing values with
  | nil => rfl
  | cons a updates ih =>
    rw [List.map_cons, List.nodup_cons] at h
    have hstep : get key (update key values (a :: updates)) k =
        (get key updates k).or (get key (set key values a) k) := ih h.2
    rw [hstep, get_set]
    by_cases hk : k = key a
    · subst hk
      have hfirst : get key (a :: updates) (key a) = some a := by simp [get]
      rw [if_pos rfl, get_eq_none.mpr h.1, hfirst]
      rfl
    · have hrest : get key (a :: updates) k = get key updates k := by
        rw [get, List.find?_cons_of_neg (by simpa using Ne.symm hk)]
        rfl
      rw [if_neg hk, hrest]

/-- **Removal.** -/
theorem get_erase {k' : κ} :
    get key (erase key values k') k = if k = k' then none else get key values k := by
  rw [get, erase, List.find?_filter]
  split
  · rename_i hk
    subst hk
    simp
  · rename_i hk
    refine congrFun (congrArg List.find? (funext fun a => ?_)) values
    by_cases ha : key a = k
    · simp [ha, hk]
    · simp [ha]

/-- Under distinct keys a value is found under its own. -/
theorem mem_iff_get (h : (values.map key).Nodup) :
    a ∈ values ↔ get key values (key a) = some a := by
  refine ⟨fun hmem => ?_, mem_of_get⟩
  cases hget : get key values (key a) with
  | none => exact absurd (List.mem_map_of_mem hmem) (get_eq_none.mp hget)
  | some b =>
    rw [List.inj_on_of_nodup_map h (mem_of_get hget) hmem (key_of_get hget)]

end Dictionary
