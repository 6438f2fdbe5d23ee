import Mathlib.Data.List.Nodup

/-! Finite maps that keep their keys in the order of first insertion: setting a key that is present
    replaces its value where it stands, setting a new one appends it. The entries carry the proof
    that no key occurs twice, so `get` is determined by membership (`get_eq_some`) and every
    operation is known by what it does to `get`. A table with a primary key is such a map too. -/

namespace Remembra

/-- An insertion-ordered map from `κ` to `ν`. -/
structure OrdMap (κ ν : Type*) where
  entries : List (κ × ν)
  nodup : (entries.map Prod.fst).Nodup

namespace OrdMap

variable {κ ν μ : Type*}

def empty : OrdMap κ ν := ⟨[], List.nodup_nil⟩

def keys (m : OrdMap κ ν) : List κ := m.entries.map Prod.fst

def size (m : OrdMap κ ν) : ℕ := m.entries.length

/-- Keep the entries that satisfy `p`. -/
def filter (p : κ → ν → Bool) (m : OrdMap κ ν) : OrdMap κ ν where
  entries := m.entries.filter fun e => p e.1 e.2
  nodup := m.nodup.sublist (List.filter_sublist.map Prod.fst)

/-- Rewrite every value, keeping keys and order. -/
def mapVal (f : κ → ν → μ) (m : OrdMap κ ν) : OrdMap κ μ where
  entries := m.entries.map fun e => (e.1, f e.1 e.2)
  nodup := by rw [List.map_map]; exact m.nodup

section Lookup
variable [DecidableEq κ]

def get (m : OrdMap κ ν) (k : κ) : Option ν := m.entries.lookup k

/-- Replace the value in place, or append the key when it is new. -/
def set (m : OrdMap κ ν) (k : κ) (v : ν) : OrdMap κ ν :=
  if h : k ∈ m.keys then m.mapVal fun k' v' => if k' = k then v else v'
  else ⟨m.entries ++ [(k, v)], by
    rw [List.map_append]
    refine List.nodup_append.mpr ⟨m.nodup, List.nodup_singleton k, ?_⟩
    rintro a ha b hb rfl
    obtain rfl : a = k := List.mem_singleton.mp hb
    exact h ha⟩

def delete (m : OrdMap κ ν) (k : κ) : OrdMap κ ν := m.filter fun k' _ => k' ≠ k

/-! ### What each operation does to `get` -/

theorem lookup_eq_some_of_nodup {l : List (κ × ν)} (hnd : (l.map Prod.fst).Nodup) {k : κ} {v : ν} :
    l.lookup k = some v ↔ (k, v) ∈ l := by
  induction l with
  | nil => simp
  | cons e l ih =>
    obtain ⟨k', v'⟩ := e
    rw [List.map_cons, List.nodup_cons] at hnd
    rw [List.lookup_cons, List.mem_cons, Prod.mk.injEq]
    by_cases hk : k = k'
    · subst hk
      have hnot : (k, v) ∉ l := fun hmem => hnd.1 (List.mem_map.mpr ⟨_, hmem, rfl⟩)
      simp [hnot, eq_comm]
    · have hbeq : (k == k') = false := by simpa using hk
      simp [hbeq, hk, ih hnd.2]

theorem get_eq_some {m : OrdMap κ ν} {k : κ} {v : ν} :
    m.get k = some v ↔ (k, v) ∈ m.entries := lookup_eq_some_of_nodup m.nodup

theorem get_eq_none {m : OrdMap κ ν} {k : κ} : m.get k = none ↔ k ∉ m.keys := by
  rw [Option.eq_none_iff_forall_not_mem]
  simp only [Option.mem_def, get_eq_some, keys, List.mem_map, Prod.exists, exists_and_right,
    exists_eq_right, not_exists]

@[simp] theorem get_empty (k : κ) : (empty : OrdMap κ ν).get k = none := rfl

theorem get_filter (p : κ → ν → Bool) (m : OrdMap κ ν) (k : κ) :
    (m.filter p).get k = (m.get k).filter (p k) := by
  ext v
  rw [Option.filter_eq_some_iff, get_eq_some, get_eq_some]
  exact List.mem_filter

theorem get_mapVal (f : κ → ν → μ) (m : OrdMap κ ν) (k : κ) :
    (m.mapVal f).get k = (m.get k).map (f k) := by
  ext v
  simp only [Option.map_eq_some_iff, get_eq_some, mapVal, List.mem_map, Prod.mk.injEq, Prod.exists]
  constructor
  · rintro ⟨a, b, hmem, rfl, rfl⟩
    exact ⟨b, hmem, rfl⟩
  · rintro ⟨b, hmem, rfl⟩
    exact ⟨k, b, hmem, rfl, rfl⟩

theorem get_set (m : OrdMap κ ν) (k k' : κ) (v : ν) :
    (m.set k v).get k' = if k' = k then some v else m.get k' := by
  unfold set
  split
  · rename_i h
    rw [get_mapVal]
    by_cases hk : k' = k
    · subst hk
      obtain ⟨w, hw⟩ := Option.ne_none_iff_exists'.mp fun hn => get_eq_none.mp hn h
      simp [hw]
    · simp [hk]
  · rename_i h
    ext w
    rw [get_eq_some, List.mem_append, List.mem_singleton, Prod.mk.injEq, ← get_eq_some]
    by_cases hk : k' = k
    · subst hk
      simp [get_eq_none.mpr h, eq_comm]
    · simp [hk]

@[simp] theorem get_set_self (m : OrdMap κ ν) (k : κ) (v : ν) : (m.set k v).get k = some v := by
  rw [get_set, if_pos rfl]

theorem get_set_ne (m : OrdMap κ ν) {k k' : κ} (h : k' ≠ k) (v : ν) :
    (m.set k v).get k' = m.get k' := by
  rw [get_set, if_neg h]

theorem entries_set_of_new {m : OrdMap κ ν} {k : κ} (h : k ∉ m.keys) (v : ν) :
    (m.set k v).entries = m.entries ++ [(k, v)] := by
  rw [set, dif_neg h]

theorem mem_keys_set {m : OrdMap κ ν} {k k' : κ} {v : ν} (h : k' ∈ (m.set k v).keys) :
    k' ∈ m.keys ∨ k' = k := by
  by_contra hnot
  obtain ⟨hkeys, hne⟩ := not_or.mp hnot
  refine get_eq_none.mp ?_ h
  rw [get_set_ne _ hne]
  exact get_eq_none.mpr hkeys

theorem get_delete (m : OrdMap κ ν) (k k' : κ) :
    (m.delete k).get k' = if k' = k then none else m.get k' := by
  rw [delete, get_filter]
  by_cases hk : k' = k
  · cases h : m.get k' <;> simp [Option.filter, hk]
  · cases h : m.get k' <;> simp [Option.filter, hk]

end Lookup

end OrdMap
end Remembra
