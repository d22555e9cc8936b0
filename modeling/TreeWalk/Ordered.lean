/-! Association lists that remember the order in which keys first came. -/
namespace TreeWalk

abbrev Ordered (κ ν : Type) := List (κ × ν)

namespace Ordered

variable {κ ν : Type} [DecidableEq κ]

def get? (m : Ordered κ ν) (k : κ) : Option ν :=
  match m with
  | [] => none
  | (k', v) :: rest => if k' = k then some v else get? rest k

def put (m : Ordered κ ν) (k : κ) (v : ν) : Ordered κ ν :=
  match m with
  | [] => [(k, v)]
  | (k', v') :: rest => if k' = k then (k, v) :: rest else (k', v') :: put rest k v

def keys (m : Ordered κ ν) : List κ := m.map (·.1)

@[simp] theorem get?_put_self (m : Ordered κ ν) (k : κ) (v : ν) : (put m k v).get? k = some v := by
  induction m with
  | nil => simp [put, get?]
  | cons e rest ih => by_cases h : e.1 = k <;> simp [put, get?, h, ih]

theorem get?_put_ne (m : Ordered κ ν) {k j : κ} (v : ν) (h : j ≠ k) :
    (put m k v).get? j = m.get? j := by
  induction m with
  | nil => simp [put, get?, Ne.symm h]
  | cons e rest ih =>
    by_cases he : e.1 = k
    · simp [put, get?, he, Ne.symm h]
    · by_cases hj : e.1 = j <;> simp_all [put, get?]

/-- A key that is there keeps its place; a new one comes last. -/
theorem keys_put (m : Ordered κ ν) (k : κ) (v : ν) :
    keys (put m k v) = if k ∈ keys m then keys m else keys m ++ [k] := by
  induction m with
  | nil => simp [put, keys]
  | cons e rest ih =>
    by_cases he : e.1 = k
    · simp [put, keys, he]
    · have hk : ¬ k = e.1 := fun h => he h.symm
      by_cases hm : k ∈ rest.map (·.1) <;> simp_all [put, keys]

@[simp] theorem put_put (m : Ordered κ ν) (k : κ) (v w : ν) : put (put m k v) k w = put m k w := by
  induction m with
  | nil => simp [put]
  | cons e rest ih => by_cases h : e.1 = k <;> simp [put, h, ih]

theorem map_put_const (m : Ordered κ ν) (k : κ) (v w : ν) :
    (put m k v).map (fun e => (e.1, w)) = put (m.map fun e => (e.1, w)) k w := by
  induction m with
  | nil => simp [put]
  | cons e rest ih => by_cases he : e.1 = k <;> simp [put, he, ih]

omit [DecidableEq κ] in
@[simp] theorem keys_map_const (m : Ordered κ ν) (w : ν) :
    keys (m.map fun e => (e.1, w)) = keys m := by
  simp [keys]

theorem get?_map_const (m : Ordered κ ν) (k : κ) (w : ν) :
    get? (m.map fun e => (e.1, w)) k = (m.get? k).map fun _ => w := by
  induction m with
  | nil => rfl
  | cons e rest ih => by_cases he : e.1 = k <;> simp [get?, he, ih]

theorem isSome_get?_iff (m : Ordered κ ν) (k : κ) : (m.get? k).isSome ↔ k ∈ keys m := by
  induction m with
  | nil => simp [get?, keys]
  | cons e rest ih =>
    by_cases he : e.1 = k
    · simp [get?, keys, he]
    · have hk : ¬ k = e.1 := fun h => he h.symm
      simp_all [get?, keys]

theorem mem_of_get? {m : Ordered κ ν} {k : κ} {v : ν} (h : m.get? k = some v) : (k, v) ∈ m := by
  induction m with
  | nil => cases h
  | cons e m ih =>
    unfold get? at h
    split at h
    · next hk =>
      cases h
      rw [← hk]
      exact List.mem_cons_self
    · exact List.mem_cons_of_mem _ (ih h)

/-- With distinct keys, what is in the map is what is found. -/
theorem mem_iff_get? {m : Ordered κ ν} (h : (keys m).Nodup) (k : κ) (v : ν) :
    (k, v) ∈ m ↔ m.get? k = some v := by
  refine ⟨fun hmem => ?_, mem_of_get?⟩
  induction m with
  | nil => cases hmem
  | cons e m ih =>
    obtain ⟨hnew, hrest⟩ := List.nodup_cons.mp h
    rcases List.mem_cons.mp hmem with rfl | hmem
    · simp [get?]
    · have hne : e.1 ≠ k := by
        rintro rfl
        exact hnew (List.mem_map.mpr ⟨_, hmem, rfl⟩)
      simp [get?, hne, ih hrest hmem]

theorem nodup_keys_put {m : Ordered κ ν} (h : (keys m).Nodup) (k : κ) (v : ν) :
    (keys (put m k v)).Nodup := by
  rw [keys_put]
  split
  · exact h
  · next hnew =>
    refine List.nodup_append.mpr ⟨h, by simp, fun j hj i hi => ?_⟩
    rw [List.mem_singleton.mp hi]
    exact ne_of_mem_of_not_mem hj hnew

end Ordered

end TreeWalk
