import Mathlib.Data.List.Nodup

/-! Tables with a primary key: rows in insertion order, no two with one key. The same structure is a
    map in which every value is stored under a key it carries itself. Every operation is known by
    what it does to `get`; rewriting rows keeps their keys, so a table never loses its key. -/

namespace Remembra

/-- The first least element of a list under the strict order `lt`: what a stable sort puts first. -/
def firstMin {α : Type*} (lt : α → α → Bool) : List α → Option α
  | [] => none
  | a :: l =>
    match firstMin lt l with
    | none => some a
    | some b => if lt b a then some b else some a

section FirstMin
variable {α β : Type*} {lt : α → α → Bool}

theorem firstMin_mem {l : List α} {a : α} (h : firstMin lt l = some a) : a ∈ l := by
  induction l generalizing a with
  | nil => cases h
  | cons b l ih =>
    rw [firstMin] at h
    rcases hl : firstMin lt l with _ | c <;> rw [hl] at h <;> simp only at h
    · cases h
      exact List.mem_cons_self
    · split at h <;> cases h
      · exact List.mem_cons_of_mem b (ih hl)
      · exact List.mem_cons_self

theorem firstMin_eq_none {l : List α} : firstMin lt l = none ↔ l = [] := by
  cases l with
  | nil => simp [firstMin]
  | cons b l =>
    rw [firstMin]
    rcases firstMin lt l with _ | c <;> simp only [reduceCtorEq]
    split <;> simp

/-- Choosing before or after a map that respects the order is the same. -/
theorem firstMin_map {lt' : β → β → Bool} {f : α → β} (h : ∀ a b, lt' (f a) (f b) = lt a b)
    (l : List α) : firstMin lt' (l.map f) = (firstMin lt l).map f := by
  induction l with
  | nil => rfl
  | cons a l ih =>
    rw [List.map_cons, firstMin, firstMin, ih]
    rcases firstMin lt l with _ | b <;> simp only [Option.map_none, Option.map_some]
    rw [h]
    split <;> rfl

end FirstMin

variable {κ ρ : Type*}

/-- A table of rows `ρ` with primary key `key`. -/
structure Table (key : ρ → κ) where
  rows : List ρ
  nodup : (rows.map key).Nodup

namespace Table

variable {key : ρ → κ}

theorem ext_rows {t u : Table key} (h : t.rows = u.rows) : t = u := by
  cases t; cases u; cases h; rfl

def empty : Table key := ⟨[], List.nodup_nil⟩

/-- Rewrite every row, keeping its key. -/
def mapRows (t : Table key) (f : ρ → ρ) (hf : ∀ r, key (f r) = key r) : Table key where
  rows := t.rows.map f
  nodup := by
    rw [List.map_map, show key ∘ f = key from funext hf]
    exact t.nodup

theorem mapRows_eq_self {t : Table key} {f : ρ → ρ} (hf : ∀ r, key (f r) = key r)
    (h : ∀ r ∈ t.rows, f r = r) : t.mapRows f hf = t := by
  refine ext_rows ?_
  exact (List.map_congr_left h).trans (List.map_id _)

theorem key_ite (p : ρ → Bool) {f : ρ → ρ} (hf : ∀ r, key (f r) = key r) (r : ρ) :
    key (if p r then f r else r) = key r := by
  split
  · exact hf r
  · rfl

/-- `UPDATE … SET f WHERE p`, with the number of rows changed. -/
def updateWhere (t : Table key) (p : ρ → Bool) (f : ρ → ρ) (hf : ∀ r, key (f r) = key r) :
    Table key × ℕ :=
  (t.mapRows (fun r => if p r then f r else r) (key_ite p hf),
    (t.rows.filter p).length)

/-- `DELETE … WHERE p`, with the number of rows removed. -/
def deleteWhere (t : Table key) (p : ρ → Bool) : Table key × ℕ :=
  (⟨t.rows.filter fun r => !p r, t.nodup.sublist (List.filter_sublist.map key)⟩,
    (t.rows.filter p).length)

theorem mem_deleteWhere {t : Table key} {p : ρ → Bool} {r : ρ} :
    r ∈ (t.deleteWhere p).1.rows ↔ r ∈ t.rows ∧ p r = false := by
  simp [deleteWhere]

section Lookup
variable [DecidableEq κ]

def get (t : Table key) (k : κ) : Option ρ := t.rows.find? fun r => key r = k

/-- `INSERT`: refused when the key is taken. -/
def insert (t : Table key) (r : ρ) : Option (Table key) :=
  if h : key r ∈ t.rows.map key then none
  else some ⟨t.rows ++ [r], by
    rw [List.map_append]
    refine List.nodup_append.mpr ⟨t.nodup, List.nodup_singleton _, ?_⟩
    rintro a ha b hb rfl
    obtain rfl : a = key r := List.mem_singleton.mp hb
    exact h ha⟩

/-- `map.set(key r, r)`: replace the row with this key where it stands, or append. -/
def upsert (t : Table key) (r : ρ) : Table key :=
  match t.insert r with
  | some u => u
  | none => t.mapRows (fun r' => if key r' = key r then r else r') fun r' => by
      split
      · rename_i h; exact h.symm
      · rfl

/-! ### What each operation does to `get` -/

theorem find_eq_some_of_nodup {l : List ρ} (hnd : (l.map key).Nodup) {k : κ} {r : ρ} :
    l.find? (fun r => key r = k) = some r ↔ r ∈ l ∧ key r = k := by
  induction l with
  | nil => simp
  | cons a l ih =>
    rw [List.map_cons, List.nodup_cons] at hnd
    rw [List.find?_cons, List.mem_cons]
    rcases eq_or_ne (key a) k with rfl | ha
    · simp only [decide_true, Option.some.injEq]
      constructor
      · rintro rfl
        exact ⟨.inl rfl, rfl⟩
      · rintro ⟨rfl | hmem, hr⟩
        · rfl
        · exact absurd (List.mem_map.mpr ⟨r, hmem, hr⟩) hnd.1
    · simp only [ha, decide_false]
      rw [ih hnd.2]
      constructor
      · rintro ⟨hmem, hr⟩
        exact ⟨.inr hmem, hr⟩
      · rintro ⟨rfl | hmem, hr⟩
        · exact absurd hr ha
        · exact ⟨hmem, hr⟩

theorem get_eq_some {t : Table key} {k : κ} {r : ρ} :
    t.get k = some r ↔ r ∈ t.rows ∧ key r = k := find_eq_some_of_nodup t.nodup

theorem get_eq_none {t : Table key} {k : κ} : t.get k = none ↔ k ∉ t.rows.map key := by
  rw [get, List.find?_eq_none]
  simp

theorem key_of_get {t : Table key} {k : κ} {r : ρ} (h : t.get k = some r) : key r = k :=
  (get_eq_some.mp h).2

theorem get_of_mem {t : Table key} {r : ρ} (h : r ∈ t.rows) : t.get (key r) = some r :=
  get_eq_some.mpr ⟨h, rfl⟩

/-- What stands under a key depends on the rows with that key alone. -/
theorem get_congr {t u : Table key} {k : κ} (h : ∀ r, key r = k → (r ∈ t.rows ↔ r ∈ u.rows)) :
    t.get k = u.get k := by
  ext r
  rw [get_eq_some, get_eq_some]
  exact and_congr_left fun hr => h r hr

theorem get_mapRows (t : Table key) (f : ρ → ρ) (hf : ∀ r, key (f r) = key r) (k : κ) :
    (t.mapRows f hf).get k = (t.get k).map f := by
  ext r
  simp only [Option.map_eq_some_iff, get_eq_some, mapRows, List.mem_map]
  constructor
  · rintro ⟨⟨a, hmem, rfl⟩, hk⟩; exact ⟨a, ⟨hmem, (hf a).symm.trans hk⟩, rfl⟩
  · rintro ⟨a, ⟨hmem, hk⟩, rfl⟩; exact ⟨⟨a, hmem, rfl⟩, (hf a).trans hk⟩

theorem get_updateWhere (t : Table key) (p : ρ → Bool) (f : ρ → ρ) (hf : ∀ r, key (f r) = key r)
    (k : κ) : (t.updateWhere p f hf).1.get k = (t.get k).map fun r => if p r then f r else r := by
  exact get_mapRows t _ (key_ite p hf) k

theorem get_deleteWhere (t : Table key) (p : ρ → Bool) (k : κ) :
    (t.deleteWhere p).1.get k = (t.get k).filter fun r => !p r := by
  ext r
  simp only [Option.filter_eq_some_iff, get_eq_some, deleteWhere, List.mem_filter]
  tauto

theorem insert_eq_none {t : Table key} {r : ρ} : t.insert r = none ↔ t.get (key r) ≠ none := by
  rw [Ne, get_eq_none, not_not, insert]
  split <;> simp [*]

theorem rows_insert {t u : Table key} {r : ρ} (h : t.insert r = some u) :
    t.get (key r) = none ∧ u.rows = t.rows ++ [r] := by
  rw [insert] at h
  split at h
  · cases h
  · rename_i hfree
    cases h
    exact ⟨get_eq_none.mpr hfree, rfl⟩

theorem get_insert {t u : Table key} {r : ρ} (h : t.insert r = some u) (k : κ) :
    u.get k = if k = key r then some r else t.get k := by
  obtain ⟨hfree, hrows⟩ := rows_insert h
  rw [get, hrows, List.find?_append]
  change (t.get k).or _ = _
  rcases eq_or_ne k (key r) with rfl | hk
  · simp [hfree]
  · rw [if_neg hk]
    simp [hk.symm]

theorem get_upsert (t : Table key) (r : ρ) (k : κ) :
    (t.upsert r).get k = if k = key r then some r else t.get k := by
  rw [upsert]
  split
  · exact get_insert (by assumption) k
  · rename_i hnone
    obtain ⟨old, hold⟩ := Option.ne_none_iff_exists'.mp (insert_eq_none.mp hnone)
    rw [get_mapRows]
    rcases eq_or_ne k (key r) with rfl | hk
    · simp [hold, key_of_get hold]
    · rw [if_neg hk]
      cases hget : t.get k with
      | none => rfl
      | some r' => simp [key_of_get hget, hk]

theorem get_upsert_of_ne (t : Table key) {r : ρ} {k : κ} (h : k ≠ key r) :
    (t.upsert r).get k = t.get k := by
  rw [get_upsert, if_neg h]

/-- A statement whose `WHERE` names the key of one row changes one row when that row meets the rest
    of the condition, and none otherwise. -/
theorem changes_of_key (t : Table key) (p : ρ → Bool) (k : κ) (hp : ∀ r, p r = true → key r = k) :
    (t.rows.filter p).length = if (t.get k).any p then 1 else 0 := by
  have hle : (t.rows.filter p).length ≤ 1 := by
    by_contra hlt
    have hnd : ((t.rows.filter p).map key).Nodup :=
      t.nodup.sublist (List.filter_sublist.map key)
    rcases hf : t.rows.filter p with _ | ⟨a, _ | ⟨b, l⟩⟩
    · simp [hf] at hlt
    · simp [hf] at hlt
    · have ha : a ∈ t.rows.filter p := by rw [hf]; exact List.mem_cons_self
      have hb : b ∈ t.rows.filter p := by rw [hf]; exact List.mem_cons_of_mem a List.mem_cons_self
      rw [List.mem_filter] at ha hb
      rw [hf, List.map_cons, List.map_cons, hp a ha.2, hp b hb.2] at hnd
      simp at hnd
  rcases hget : t.get k with _ | r
  · rw [List.length_eq_zero_iff.mpr]
    · rfl
    · rw [List.filter_eq_nil_iff]
      intro r hr hpr
      exact get_eq_none.mp hget (List.mem_map.mpr ⟨r, hr, hp r hpr⟩)
  · have hr := get_eq_some.mp hget
    rw [Option.any_some]
    cases hpr : p r with
    | true =>
      have : r ∈ t.rows.filter p := List.mem_filter.mpr ⟨hr.1, hpr⟩
      have := List.length_pos_of_mem this
      rw [if_pos rfl]
      omega
    | false =>
      rw [if_neg (by simp), List.length_eq_zero_iff, List.filter_eq_nil_iff]
      intro r' hr' hpr'
      obtain rfl : r' = r := Option.some.inj
        ((get_eq_some.mpr ⟨hr', hp r' hpr'⟩).symm.trans hget)
      rw [hpr] at hpr'
      cases hpr'

/-- A statement that names one key rewrites that row, reporting one change, or does nothing. -/
theorem updateWhere_of_key (t : Table key) (p : ρ → Bool) (f : ρ → ρ)
    (hf : ∀ r, key (f r) = key r) (k : κ) (hp : ∀ r, p r = true → key r = k) :
    (∃ old, t.get k = some old ∧ p old = true ∧ (t.updateWhere p f hf).2 = 1 ∧
      ∀ k', (t.updateWhere p f hf).1.get k' = if k' = k then some (f old) else t.get k') ∨
    ((∀ old, t.get k = some old → p old = false) ∧ t.updateWhere p f hf = (t, 0)) := by
  have hchanges := t.changes_of_key p k hp
  rcases hget : t.get k with _ | old
  · refine .inr ⟨(by rintro old ⟨⟩), Prod.ext (mapRows_eq_self (key_ite p hf) ?_) ?_⟩
    · intro r hr
      have hnot : ¬ p r = true := fun hpr =>
        get_eq_none.mp hget (List.mem_map.mpr ⟨r, hr, hp r hpr⟩)
      exact if_neg hnot
    · rwa [hget] at hchanges
  · rw [hget, Option.any_some] at hchanges
    cases hpo : p old with
    | true =>
      refine .inl ⟨old, rfl, hpo, by rwa [hpo] at hchanges, fun k' => ?_⟩
      rw [get_updateWhere]
      rcases eq_or_ne k' k with rfl | hk
      · simp [hget, hpo]
      · rw [if_neg hk]
        rcases hget' : t.get k' with _ | r
        · rfl
        · have hnot : ¬ p r = true := fun hpr => hk ((key_of_get hget').symm.trans (hp r hpr))
          simp [hnot]
    | false =>
      refine .inr ⟨(by rintro _ ⟨⟩; exact hpo), Prod.ext (mapRows_eq_self (key_ite p hf) ?_) ?_⟩
      · intro r hr
        refine if_neg fun hpr => ?_
        obtain rfl : r = old := Option.some.inj
          ((get_eq_some.mpr ⟨hr, hp r hpr⟩).symm.trans hget)
        rw [hpo] at hpr
        cases hpr
      · rwa [hpo] at hchanges

theorem insert_of_free {t : Table key} {r : ρ} (h : t.get (key r) = none) :
    ∃ u, t.insert r = some u ∧ u.rows = t.rows ++ [r] := by
  rcases hu : t.insert r with _ | u
  · exact absurd h (insert_eq_none.mp hu)
  · exact ⟨u, rfl, (rows_insert hu).2⟩

theorem upsert_of_free {t : Table key} {r : ρ} (h : t.get (key r) = none) :
    (t.upsert r).rows = t.rows ++ [r] := by
  obtain ⟨u, hu, hrows⟩ := insert_of_free h
  rw [upsert, hu]
  exact hrows

theorem upsert_of_get {t : Table key} {r : ρ} (h : t.get (key r) ≠ none) :
    (t.upsert r).rows = t.rows.map fun r' => if key r' = key r then r else r' := by
  rw [upsert]
  split
  · rename_i u hu
    exact absurd (rows_insert hu).1 h
  · rfl

/-- Where the row with a key stands. -/
theorem rows_split {t : Table key} {k : κ} {r : ρ} (h : t.get k = some r) :
    ∃ l l', t.rows = l ++ r :: l' ∧ (∀ a ∈ l, key a ≠ k) ∧ ∀ a ∈ l', key a ≠ k := by
  obtain ⟨hk, l, l', hrows, hl⟩ := List.find?_eq_some_iff_append.mp h
  have hkey : key r = k := of_decide_eq_true hk
  have hnd := t.nodup
  rw [hrows, List.map_append, List.map_cons, List.nodup_append, List.nodup_cons] at hnd
  refine ⟨l, l', hrows, fun a ha => by simpa using hl a ha, fun a ha hak => hnd.2.1.1 ?_⟩
  rw [hkey, ← hak]
  exact List.mem_map_of_mem ha

/-- A statement that names one key rewrites the row where it stands. -/
theorem rows_updateWhere {t : Table key} {p : ρ → Bool} {f : ρ → ρ} (hf : ∀ r, key (f r) = key r)
    {k : κ} (hp : ∀ r, p r = true → key r = k) {old : ρ} (h : t.get k = some old)
    (hold : p old = true) : ∃ l l', t.rows = l ++ old :: l' ∧
      (t.updateWhere p f hf).1.rows = l ++ f old :: l' ∧ (t.updateWhere p f hf).2 = 1 := by
  obtain ⟨l, l', hrows, hl, hl'⟩ := rows_split h
  have hsame : ∀ m : List ρ, (∀ a ∈ m, key a ≠ k) → m.map (fun r => if p r then f r else r) = m := by
    intro m hm
    exact (List.map_congr_left fun a ha => if_neg fun hpa => hm a ha (hp a hpa)).trans (List.map_id _)
  refine ⟨l, l', hrows, ?_, ?_⟩
  · change t.rows.map _ = _
    rw [hrows, List.map_append, List.map_cons, hsame l hl, hsame l' hl', if_pos hold]
  · refine (t.changes_of_key p k hp).trans ?_
    rw [h, Option.any_some, hold]
    rfl

/-- A statement that names one key removes the row from where it stands. -/
theorem rows_deleteWhere {t : Table key} {p : ρ → Bool} {k : κ} (hp : ∀ r, p r = true → key r = k)
    {old : ρ} (h : t.get k = some old) (hold : p old = true) :
    ∃ l l', t.rows = l ++ old :: l' ∧ (t.deleteWhere p).1.rows = l ++ l' := by
  obtain ⟨l, l', hrows, hl, hl'⟩ := rows_split h
  have hsame : ∀ m : List ρ, (∀ a ∈ m, key a ≠ k) → m.filter (fun r => !p r) = m := by
    intro m hm
    refine List.filter_eq_self.mpr fun a ha => ?_
    rw [Bool.not_eq_true']
    exact Bool.eq_false_iff.mpr fun hpa => hm a ha (hp a hpa)
  refine ⟨l, l', hrows, ?_⟩
  change t.rows.filter _ = _
  rw [hrows, List.filter_append, List.filter_cons_of_neg (by simp [hold]), hsame l hl, hsame l' hl']

/-! ### A table as a map -/

/-- `map.has(k)` -/
def has (t : Table key) (k : κ) : Bool := (t.get k).isSome

/-- `map.delete(k)` -/
def erase (t : Table key) (k : κ) : Table key := (t.deleteWhere fun r => key r = k).1

theorem has_iff {t : Table key} {k : κ} : t.has k = true ↔ ∃ r ∈ t.rows, key r = k := by
  rw [has, Option.isSome_iff_exists]
  simp only [get_eq_some]

theorem has_of_mem {t : Table key} {r : ρ} (h : r ∈ t.rows) : t.has (key r) = true :=
  has_iff.mpr ⟨r, h, rfl⟩

theorem has_eq_false {t : Table key} {k : κ} : t.has k = false ↔ t.get k = none := by
  simp [has]

@[simp] theorem has_upsert (t : Table key) (r : ρ) (k : κ) :
    (t.upsert r).has k = (decide (k = key r) || t.has k) := by
  rw [has, get_upsert, has]
  split <;> simp [*]

theorem has_upsert_of_ne {t : Table key} {r : ρ} {k : κ} (h : t.has k = false) (hk : k ≠ key r) :
    (t.upsert r).has k = false := by
  rw [has_upsert, h, Bool.or_false, decide_eq_false hk]

@[simp] theorem has_mapRows (t : Table key) (f : ρ → ρ) (hf : ∀ r, key (f r) = key r) (k : κ) :
    (t.mapRows f hf).has k = t.has k := by
  rw [has, get_mapRows, Option.isSome_map, has]

theorem mem_erase {t : Table key} {k : κ} {r : ρ} : r ∈ (t.erase k).rows ↔ r ∈ t.rows ∧ key r ≠ k := by
  simp [erase, mem_deleteWhere]

theorem mem_upsert {t : Table key} {r r' : ρ} :
    r' ∈ (t.upsert r).rows ↔ r' = r ∨ r' ∈ t.rows ∧ key r' ≠ key r := by
  have hget := t.get_upsert r (key r')
  rw [← get_eq_some.trans (and_iff_left rfl), hget]
  split
  · rename_i hk
    simp [hk, eq_comm]
  · rename_i hk
    rw [get_eq_some]
    have hne : r' ≠ r := by
      rintro rfl
      exact hk rfl
    simp [hk, hne]

theorem get_erase (t : Table key) (k' k : κ) :
    (t.erase k').get k = if k = k' then none else t.get k := by
  rw [erase, get_deleteWhere]
  ext r
  rw [Option.filter_eq_some_iff]
  split
  · rename_i hk
    simp only [reduceCtorEq, iff_false, not_and]
    intro hget
    simp [key_of_get hget, hk]
  · rename_i hk
    refine and_iff_left_of_imp fun hget => ?_
    simp [key_of_get hget, hk]

theorem get_erase_of_ne (t : Table key) {k' k : κ} (h : k ≠ k') : (t.erase k').get k = t.get k := by
  rw [get_erase, if_neg h]

theorem has_erase (t : Table key) (k' k : κ) :
    (t.erase k').has k = (!decide (k = k') && t.has k) := by
  rw [has, get_erase, has]
  split <;> simp [*]

theorem has_erase_of_ne {t : Table key} {k' k : κ} (h : t.has k = true) (hk : k ≠ k') :
    (t.erase k').has k = true := by
  rw [has_erase, h, decide_eq_false hk]
  rfl

theorem has_erase_self (t : Table key) (k : κ) : (t.erase k).has k = false := by simp [has_erase]

/-- Where no row goes missing under the key, the same stands there. -/
theorem get_deleteWhere_of {t : Table key} {p : ρ → Bool} {k : κ}
    (h : ∀ r ∈ t.rows, key r = k → p r = false) : (t.deleteWhere p).1.get k = t.get k := by
  refine get_congr fun r hr => ?_
  rw [mem_deleteWhere]
  exact and_iff_left_of_imp fun hmem => h r hmem hr

/-- Fewer rows, fewer keys. -/
theorem has_eq_false_of_subset {t u : Table key} {k : κ} (hsub : ∀ r ∈ u.rows, r ∈ t.rows)
    (h : t.has k = false) : u.has k = false := by
  refine Bool.eq_false_iff.mpr fun hhas => ?_
  obtain ⟨r, hr, rfl⟩ := has_iff.mp hhas
  rw [has_of_mem (hsub r hr)] at h
  cases h

/-- Nothing under the key: nothing to delete. -/
theorem erase_of_not_has {t : Table key} {k : κ} (h : t.has k = false) : t.erase k = t := by
  refine ext_rows (List.filter_eq_self.mpr fun r hr => ?_)
  have hne : key r ≠ k := by
    rintro rfl
    rw [has_of_mem hr] at h
    cases h
  simpa using hne

/-- The size after `map.set`. -/
theorem length_upsert (t : Table key) (r : ρ) :
    (t.upsert r).rows.length = if t.has (key r) then t.rows.length else t.rows.length + 1 := by
  rcases hget : t.get (key r) with _ | old
  · rw [upsert_of_free hget, has, hget]
    simp
  · rw [upsert_of_get (by simp [hget]), has, hget]
    simp

theorem length_upsert_le {t : Table key} {r : ρ} {n : ℕ} (h : t.rows.length ≤ n) :
    (t.upsert r).rows.length ≤ n ↔ t.has (key r) = true ∨ t.rows.length < n := by
  rw [length_upsert]
  split
  · rename_i hhas
    exact ⟨fun _ => .inl hhas, fun _ => h⟩
  · rename_i hhas
    rw [or_iff_right hhas]
    exact Iff.rfl

theorem length_erase_le (t : Table key) (k : κ) : (t.erase k).rows.length ≤ t.rows.length :=
  List.length_filter_le ..

/-- `new Map(entries)`: of two rows with one key the later one counts. -/
def ofEntries (rs : List ρ) : Table key := rs.foldl upsert empty

theorem get_foldl_upsert (rs : List ρ) (t : Table key) (k : κ) :
    (rs.foldl upsert t).get k = (rs.reverse.find? fun r => key r = k).or (t.get k) := by
  induction rs generalizing t with
  | nil => simp
  | cons r rs ih =>
    rw [List.foldl_cons, ih, get_upsert, List.reverse_cons, List.find?_append, Option.or_assoc]
    rcases eq_or_ne k (key r) with rfl | hk
    · simp
    · simp [hk, hk.symm]

theorem get_ofEntries (rs : List ρ) (k : κ) :
    (ofEntries rs : Table key).get k = rs.reverse.find? fun r => key r = k := by
  exact (get_foldl_upsert rs empty k).trans Option.or_none

theorem mem_of_get_ofEntries {rs : List ρ} {k : κ} {r : ρ}
    (h : (ofEntries rs : Table key).get k = some r) : r ∈ rs ∧ key r = k := by
  rw [get_ofEntries] at h
  have hkey := List.find?_some h
  exact ⟨List.mem_reverse.mp (List.mem_of_find?_eq_some h), of_decide_eq_true hkey⟩

theorem get_ofEntries_of_nodup {rs : List ρ} (h : (rs.map key).Nodup) {r : ρ} (hr : r ∈ rs) :
    (ofEntries rs : Table key).get (key r) = some r := by
  cases hget : (ofEntries rs : Table key).get (key r) with
  | none =>
    rw [get_ofEntries, List.find?_eq_none] at hget
    exact absurd (hget r (List.mem_reverse.mpr hr)) (by simp)
  | some r' =>
    obtain ⟨hr', hkey⟩ := mem_of_get_ofEntries hget
    rw [List.inj_on_of_nodup_map h hr' hr hkey]

theorem get_ofEntries_eq_none {rs : List ρ} {k : κ} :
    (ofEntries rs : Table key).get k = none ↔ ∀ r ∈ rs, key r ≠ k := by
  rw [get_ofEntries, List.find?_eq_none]
  simp

/-! ### Loading a table -/

section Load
variable {ε : Type*} {before after : ρ → Except ε Unit} {duplicate : ρ → ε}

/-- Insert rows one by one. Each is checked `before` its key and `after` it, and a key that comes twice
    is refused. -/
def load (before : ρ → Except ε Unit) (duplicate : ρ → ε) (after : ρ → Except ε Unit) :
    List ρ → Table key → Except ε (Table key)
  | [], t => .ok t
  | r :: rs, t =>
    match before r, t.insert r, after r with
    | .error e, _, _ => .error e
    | .ok (), none, _ => .error (duplicate r)
    | .ok (), some _, .error e => .error e
    | .ok (), some u, .ok () => load before duplicate after rs u

/-- What loads is what passes the checks, no key twice; it is loaded as it stands. -/
theorem load_eq_ok {rs : List ρ} {t u : Table key} : load before duplicate after rs t = .ok u ↔
    (∀ r ∈ rs, before r = .ok () ∧ after r = .ok ()) ∧ u.rows = t.rows ++ rs := by
  induction rs generalizing t with
  | nil =>
    rw [load, List.append_nil, Except.ok.injEq]
    constructor
    · rintro rfl
      exact ⟨by simp, rfl⟩
    · rintro ⟨-, h⟩
      exact ext_rows h.symm
  | cons r rs ih =>
    rw [load, List.forall_mem_cons]
    cases hbefore : before r with
    | error e => simp
    | ok =>
      cases hinsert : t.insert r with
      | none =>
        simp only [reduceCtorEq, false_iff, true_and, not_and]
        rintro - hrows
        have hnd := u.nodup
        rw [hrows, List.map_append, List.map_cons] at hnd
        have hfree : t.get (key r) = none :=
          get_eq_none.mpr fun hm => List.disjoint_of_nodup_append hnd hm List.mem_cons_self
        exact insert_eq_none.mp hinsert hfree
      | some v =>
        cases hafter : after r with
        | error e => simp
        | ok =>
          simp only [ih, (rows_insert hinsert).2, List.append_assoc,
            List.singleton_append, true_and]

end Load

end Lookup

/-! ### Tables whose rows correspond -/

/-! ### The rows that meet a condition -/

/-- The table without the rows that miss `p`. -/
def keep (t : Table key) (p : ρ → Bool) : Table key := (t.deleteWhere fun r => !p r).1

@[simp] theorem rows_keep (t : Table key) (p : ρ → Bool) : (t.keep p).rows = t.rows.filter p := by
  simp [keep, deleteWhere]

section Keep
variable {t u : Table key} {p q : ρ → Bool} {f : ρ → ρ} {hf : ∀ r, key (f r) = key r}

/-- Conditions on the rows that are kept see the same rows. -/
theorem filter_keep (h : ∀ r, q r = true → p r = true) : (t.keep p).rows.filter q = t.rows.filter q := by
  rw [rows_keep, List.filter_filter]
  refine List.filter_congr fun r _ => ?_
  cases hq : q r with
  | false => rfl
  | true => rw [h r hq]; rfl

theorem keep_deleteWhere : ((t.deleteWhere q).1).keep p = ((t.keep p).deleteWhere q).1 := by
  refine ext_rows ?_
  simp only [rows_keep, deleteWhere, List.filter_filter, Bool.and_comm]

theorem keep_updateWhere (hp : ∀ r, p (f r) = p r) :
    ((t.updateWhere q f hf).1).keep p = ((t.keep p).updateWhere q f hf).1 := by
  refine ext_rows ?_
  simp only [rows_keep, updateWhere, mapRows, List.filter_map]
  congr 1
  refine List.filter_congr fun r _ => ?_
  rw [Function.comp_apply]
  split
  · exact hp r
  · rfl

section Keys
variable [DecidableEq κ]

theorem get_keep {k : κ} (h : ∀ r, key r = k → p r = true) : (t.keep p).get k = t.get k := by
  refine get_congr fun r hr => ?_
  rw [rows_keep, List.mem_filter, h r hr, and_iff_left rfl]

theorem insert_keep {r : ρ} (h : ∀ r', key r' = key r → p r' = true) :
    (t.keep p).insert r = (t.insert r).map fun u => u.keep p := by
  cases hins : t.insert r with
  | none =>
    rw [insert_eq_none] at hins
    rw [Option.map_none, insert_eq_none, get_keep h]
    exact hins
  | some u =>
    obtain ⟨hfree, hrows⟩ := rows_insert hins
    obtain ⟨u', hu', hrows'⟩ := insert_of_free (t := t.keep p) (r := r) (by rw [get_keep h, hfree])
    rw [hu', Option.map_some, Option.some.injEq]
    refine ext_rows ?_
    rw [hrows', rows_keep, rows_keep, hrows, List.filter_append, List.filter_singleton, h r rfl]
    rfl

end Keys

end Keep

section Image
variable {ρ' : Type*} {key' : ρ' → κ} {f : ρ' → ρ} {t : Table key} {u : Table key'}

/-- The rows of `t` are the images of the rows of `u`, in the same order. -/
def Image (f : ρ' → ρ) (t : Table key) (u : Table key') : Prop := t.rows = u.rows.map f

theorem Image.get [DecidableEq κ] (h : Image f t u) (hkey : ∀ r, key (f r) = key' r) (k : κ) :
    t.get k = (u.get k).map f := by
  rw [Table.get, Table.get, h, List.find?_map]
  simp only [Function.comp_def, hkey]

theorem Image.updateWhere (h : Image f t u) {p : ρ → Bool} {q : ρ' → Bool} {g : ρ → ρ}
    {g' : ρ' → ρ'} (hg : ∀ r, key (g r) = key r) (hg' : ∀ r, key' (g' r) = key' r)
    (hp : ∀ r ∈ u.rows, p (f r) = q r) (hset : ∀ r ∈ u.rows, q r = true → g (f r) = f (g' r)) :
    Image f (t.updateWhere p g hg).1 (u.updateWhere q g' hg').1 ∧
      (t.updateWhere p g hg).2 = (u.updateWhere q g' hg').2 := by
  refine ⟨?_, ?_⟩
  · change List.map _ t.rows = List.map f (List.map _ u.rows)
    rw [h, List.map_map, List.map_map]
    refine List.map_congr_left fun r hr => ?_
    simp only [Function.comp_apply, hp r hr]
    split
    · rename_i hq
      exact hset r hr hq
    · rfl
  · change (t.rows.filter p).length = (u.rows.filter q).length
    rw [h, List.filter_map, List.length_map]
    exact congrArg List.length (List.filter_congr hp)

theorem Image.deleteWhere (h : Image f t u) {p : ρ → Bool} {q : ρ' → Bool}
    (hp : ∀ r ∈ u.rows, p (f r) = q r) :
    Image f (t.deleteWhere p).1 (u.deleteWhere q).1 ∧
      (t.deleteWhere p).2 = (u.deleteWhere q).2 := by
  refine ⟨?_, ?_⟩
  · change t.rows.filter _ = (u.rows.filter _).map f
    rw [h, List.filter_map]
    refine congrArg (List.map f) (List.filter_congr fun r hr => ?_)
    simp only [Function.comp_apply, hp r hr]
  · change (t.rows.filter p).length = (u.rows.filter q).length
    rw [h, List.filter_map, List.length_map]
    exact congrArg List.length (List.filter_congr hp)

end Image

end Table
end Remembra
