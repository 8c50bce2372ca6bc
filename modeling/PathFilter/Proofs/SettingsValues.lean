import Mathlib.Data.List.Induction
import Mathlib.Data.List.Nodup
import PathFilter.GitConfig.Settings

/-! # The values that assignments leave behind

Settings are a map from keys to values in which each key stands once (`Settings.Distinct`).  The
settings that assignments leave behind (`Settings.ofAssignments`) give each key the value that it
was assigned last (`get?_ofAssignments`), and **merging the settings of some assignments into those
of others is to carry them out afterwards** (`update_ofAssignments`).
-/

namespace PathFilter.GitConfig

/-- The value that a key is assigned last. -/
def lastValue? (as : List Assignment) (key : Text) : Option Text :=
  (as.reverse.find? (·.key = key)).map (·.value)

namespace Settings
variable {s t : Settings} {key value k v : Text} {a : Assignment} {as bs : List Assignment}

/-- Each key stands once. -/
def Distinct (s : Settings) : Prop := (s.map (·.1)).Nodup

/-- The settings that assignments leave behind. -/
def ofAssignments (as : List Assignment) : Settings :=
  as.foldl (fun s a => s.set a.key a.value) []

/-! ## One value -/

theorem set_of_mem (h : key ∈ s.map (·.1)) (value : Text) :
    (s.set key value).map (·.1) = s.map (·.1) := by
  induction s with
  | nil => cases h
  | cons e s ih =>
    obtain ⟨k, v⟩ := e
    rw [set]
    split
    · rename_i hk
      rw [hk, List.map_cons, List.map_cons]
    · rename_i hk
      have hmem : key ∈ s.map (·.1) := (List.mem_cons.mp h).resolve_left (Ne.symm hk)
      rw [List.map_cons, List.map_cons, ih hmem]

theorem set_of_not_mem (h : key ∉ s.map (·.1)) (value : Text) :
    s.set key value = s ++ [(key, value)] := by
  induction s with
  | nil => rfl
  | cons e s ih =>
    rw [set, if_neg (Ne.symm (List.ne_of_not_mem_cons h)), ih (List.not_mem_of_not_mem_cons h),
      List.cons_append]

theorem Distinct.set (hs : s.Distinct) (key value : Text) : (s.set key value).Distinct := by
  by_cases h : key ∈ s.map (·.1)
  · rw [Distinct, set_of_mem h]
    exact hs
  · rw [Distinct, set_of_not_mem h, List.map_append, List.nodup_append]
    refine ⟨hs, List.nodup_singleton key, ?_⟩
    rintro k hk _ hl rfl
    cases List.mem_singleton.mp hl
    exact h hk

theorem get?_cons (k v : Text) (s : Settings) (key : Text) :
    get? ((k, v) :: s) key = if key = k then some v else get? s key := by
  rw [get?, List.lookup_cons, ← get?]
  by_cases hk : key = k
  · simp [hk]
  · simp [hk, beq_eq_false_iff_ne.mpr hk]

theorem get?_set (s : Settings) (key value k : Text) :
    (s.set key value).get? k = if k = key then some value else s.get? k := by
  induction s with
  | nil => rw [set, get?_cons]
  | cons e s ih =>
    obtain ⟨l, v⟩ := e
    rw [set]
    by_cases hl : l = key
    · rw [if_pos hl, get?_cons, get?_cons, hl]
      by_cases hk : k = key
      · simp [hk]
      · simp [hk]
    · rw [if_neg hl, get?_cons, get?_cons, ih]
      by_cases hk : k = l
      · simp [hk, hl]
      · simp [hk]

/-- The last one of two values that a key is given holds. -/
theorem set_set (s : Settings) (key v value : Text) :
    (s.set key v).set key value = s.set key value := by
  induction s with
  | nil => simp [set]
  | cons e s ih =>
    obtain ⟨k, u⟩ := e
    by_cases hk : k = key
    · simp [set, hk]
    · simp [set, hk, ih]

/-- It does not matter whether a key that has a value is given another one before or after some
other key is. -/
theorem set_comm (hmem : key ∈ s.map (·.1)) (hne : k ≠ key) (v value : Text) :
    (s.set k v).set key value = (s.set key value).set k v := by
  induction s with
  | nil => cases hmem
  | cons e s ih =>
    obtain ⟨l, u⟩ := e
    by_cases hl : l = key
    · subst hl
      simp [set, Ne.symm hne]
    · have hs : key ∈ s.map (·.1) := (List.mem_cons.mp hmem).resolve_left (Ne.symm hl)
      by_cases hk : l = k
      · simp [set, hk, hne]
      · simp [set, hk, hl, ih hs]

/-! ## Many values -/

theorem mem_keys_set_of_mem (h : key ∈ s.map (·.1)) (k v : Text) :
    key ∈ (s.set k v).map (·.1) := by
  by_cases hk : k ∈ s.map (·.1)
  · rw [set_of_mem hk]
    exact h
  · rw [set_of_not_mem hk, List.map_append]
    exact List.mem_append_left _ h

/-- A key that other settings do not hold can be given its value before or after they are merged. -/
theorem update_set_comm (hmem : key ∈ s.map (·.1)) (ht : key ∉ t.map (·.1)) (value : Text) :
    (s.update t).set key value = (s.set key value).update t := by
  induction t generalizing s with
  | nil => rfl
  | cons e t ih =>
    obtain ⟨k, v⟩ := e
    have hk : k ≠ key := Ne.symm (List.ne_of_not_mem_cons ht)
    show ((s.set k v).update t).set key value = ((s.set key value).set k v).update t
    rw [ih (mem_keys_set_of_mem hmem k v) (List.not_mem_of_not_mem_cons ht), set_comm hmem hk]

theorem update_set (ht : t.Distinct) (s : Settings) (key value : Text) :
    s.update (t.set key value) = (s.update t).set key value := by
  induction t generalizing s with
  | nil => rfl
  | cons e t ih =>
    obtain ⟨k, v⟩ := e
    obtain ⟨hk, ht⟩ := List.nodup_cons.mp ht
    rw [set]
    split
    · rename_i heq
      subst heq
      show (s.set k value).update t = ((s.set k v).update t).set k value
      have hmem : k ∈ (s.set k v).map (·.1) := by
        by_cases h : k ∈ s.map (·.1)
        · exact mem_keys_set_of_mem h k v
        · rw [set_of_not_mem h, List.map_append]
          exact List.mem_append_right _ (List.mem_singleton_self k)
      rw [update_set_comm hmem hk, set_set]
    · exact ih ht (s.set k v)

/-! ## Assignments -/

theorem ofAssignments_concat (as : List Assignment) (a : Assignment) :
    ofAssignments (as ++ [a]) = (ofAssignments as).set a.key a.value := by
  rw [ofAssignments, List.foldl_append]
  rfl

theorem distinct_ofAssignments (as : List Assignment) : (ofAssignments as).Distinct := by
  induction as using List.reverseRecOn with
  | nil => exact List.nodup_nil
  | append_singleton as a ih =>
    rw [ofAssignments_concat]
    exact ih.set a.key a.value

/-- **Each key has the value that it was assigned last.** -/
theorem get?_ofAssignments (as : List Assignment) (key : Text) :
    (ofAssignments as).get? key = lastValue? as key := by
  induction as using List.reverseRecOn with
  | nil => rfl
  | append_singleton as a ih =>
    rw [ofAssignments_concat, get?_set, ih, lastValue?, lastValue?, List.reverse_append]
    by_cases hkey : a.key = key
    · simp [hkey]
    · simp [hkey, Ne.symm hkey]

/-- **Merging the settings of assignments is to carry the assignments out afterwards.** -/
theorem update_ofAssignments (as bs : List Assignment) :
    (ofAssignments as).update (ofAssignments bs) = ofAssignments (as ++ bs) := by
  induction bs using List.reverseRecOn with
  | nil =>
    rw [List.append_nil]
    rfl
  | append_singleton bs b ih =>
    rw [ofAssignments_concat, update_set (distinct_ofAssignments bs), ih, ← List.append_assoc,
      ofAssignments_concat]

end Settings
end PathFilter.GitConfig
