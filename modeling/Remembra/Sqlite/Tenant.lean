import Remembra.Sqlite.Audit

/-! The tenant's predicate in its three forms: `memoryBelongsToTenant` on a record, the `WHERE` that
    `tenantWhere` generates, and the candidate filter with the modes of `candidateTenantParams`. They
    differ on one kind of filter only, an organization-wide one that names a dimension all the same:
    `tenantWhere` then still asks for the dimension (`wide_filter_disagrees`). For every other filter,
    and without one, all calls let through the same memories (`agree_iff`). -/

namespace Remembra.Sqlite.Serial
open Store (Memory TenantFilter TenantId truthy memoryBelongsToTenant matchesDimension isValidTenantId)

/-! ### The candidate filter -/

/-- The mode of a dimension: 0 for no condition, 1 for `IS NULL`, 2 for a value. -/
def candidateMode (tenant : Option TenantFilter) (value : Option TenantId) : ℕ :=
  match tenant with
  | none => 0
  | some t => if t.organizationWide = some true then 0 else if value.isSome then 2 else 1

/-- `((? = 0) OR (? = 1 AND m.column IS NULL) OR (? = 2 AND m.column = ?))` -/
def candidateDimension (mode : ℕ) (param : String) (column : Option String) : Bool :=
  mode = 0 || (mode = 1 && column = none) || (mode = 2 && column = some param)

/-- The tenant's part of the candidate statements, with the parameters of `candidateTenantParams`. -/
def candidateTenantWhere (tenant : Option TenantFilter) (row : Row) : Bool :=
  let hasTenant := if tenant.isSome then 1 else 0
  let param (value : Option TenantId) : String := (value.map (·.1)).getD ""
  let dimension (value : Option TenantId) (column : Option String) : Bool :=
    candidateDimension (candidateMode tenant value) (param value) column
  ((hasTenant = 0 && row.tenantId = none) ||
      (hasTenant = 1 && row.tenantId = some (param (tenant.map (·.organizationId))))) &&
    dimension (tenant.bind (·.projectId)) row.projectId &&
    dimension (tenant.bind (·.userId)) row.userId &&
    dimension (tenant.bind (·.agentId)) row.agentId

/-- `all` -/
def Tables.all (s : Tables) (includeArchived : Bool) (tenant : Option TenantFilter) : List Memory :=
  (newestFirst Row.updatedAt (s.memories.rows.filter fun row =>
    tenantWhere tenant row && (includeArchived || row.archivedAt = none))).filterMap rowToMemory

/-! ### Where the forms agree -/

/-- The filter names a dimension that the row does not have. -/
def misses (filter : Option TenantId) (column : Option String) : Bool :=
  filter.any fun f => column ≠ some f.1

/-- An organization-wide filter that names a dimension which this row of the organization misses. -/
def Narrowed (t : TenantFilter) (row : Row) : Prop :=
  t.organizationWide = some true ∧ row.tenantId = some t.organizationId.1 ∧
    (misses t.projectId row.projectId || misses t.userId row.userId ||
      misses t.agentId row.agentId) = true

/-- What every operation lets this principal see of the memory in a row. -/
structure Agree (s : Tables) (t : TenantFilter) (row : Row) (m : Memory) : Prop where
  /-- `archive`, `revive` and `forget` select with `tenantWhere`. -/
  selected : (selected s.memories row.id (some t)).isSome = memoryBelongsToTenant m t
  get : get s.memories row.id (some t) = if memoryBelongsToTenant m t then some m else none
  all : m ∈ s.all true (some t) ↔ memoryBelongsToTenant m t = true
  update : (∃ r, s.existing m {} (some t) = .ok r) ↔ memoryBelongsToTenant m t = true
  /-- `history`, on the versions of the memory. -/
  history : ∀ v : VersionRow, v.tenant = columns row →
    v.tenant.within (some (recordTenant t)) = memoryBelongsToTenant m t
  candidates : candidateTenantWhere (some t) row = memoryBelongsToTenant m t
  file : Store.matchesTenant m (some t) = memoryBelongsToTenant m t

section Agree
variable {s : Tables} {t : TenantFilter} {row : Row} {m : Memory}

theorem truthy_of_valid {value : Option String} (h : value.all isValidTenantId = true) :
    truthy value = value := by
  cases value with
  | none => rfl
  | some v => exact truthy_tenantId ⟨v, h⟩

/-- The dimensions of the record are the row's. -/
theorem dims_of_read (h : rowToMemory row = some m) :
    m.tenantId = row.tenantId ∧ m.projectId = row.projectId ∧ m.userId = row.userId ∧
      m.agentId = row.agentId := by
  obtain ⟨hread, rfl⟩ := rowToMemory_eq_some.mp h
  simp only [isReadable, Bool.and_eq_true] at hread
  exact ⟨truthy_of_valid hread.1.1.1.1.2, truthy_of_valid hread.1.1.1.2, truthy_of_valid hread.1.1.2,
    truthy_of_valid hread.1.2⟩

theorem split_dims (org wide p u a mp mu ma : Bool) :
    (org && ((wide || p) && !mp) && ((wide || u) && !mu) && ((wide || a) && !ma)) =
      (org && (wide || p && u && a) && !mp && !mu && !ma) := by
  revert org wide p u a mp mu ma
  decide

theorem unsplit_dims (org wide : Bool) {p u a mp mu ma : Bool} (hp : mp = true → p = false)
    (hu : mu = true → u = false) (ha : ma = true → a = false) :
    (org && (wide || p && u && a) && !mp && !mu && !ma) = (org && (wide || p && u && a)) ↔
      ¬ (wide = true ∧ org = true ∧ (mp || mu || ma) = true) := by
  revert org wide p u a mp mu ma
  decide

/-- `tenantWhere` asks for the dimensions that a filter names, whatever else the filter says. -/
theorem tenantWhere_eq_belongs (h : rowToMemory row = some m) :
    tenantWhere (some t) row = (memoryBelongsToTenant m t && !misses t.projectId row.projectId &&
      !misses t.userId row.userId && !misses t.agentId row.agentId) := by
  obtain ⟨hor, hp, hu, ha⟩ := dims_of_read h
  have hdim : ∀ (filter : Option TenantId) (column : Option String),
      dimensionWhere (decide (t.organizationWide = some true)) (filter.map (·.1)) column =
        ((decide (t.organizationWide = some true) || matchesDimension filter column) &&
          !misses filter column) := by
    intro filter column
    cases filter with
    | none => simp [dimensionWhere, matchesDimension, misses, truthy]
    | some f =>
      rw [Option.map_some, dimensionWhere, truthy_tenantId]
      by_cases hc : column = some f.1 <;> simp [matchesDimension, misses, hc]
  rw [tenantWhere_eq, memoryBelongsToTenant, hor, hp, hu, ha]
  simp only [Option.map_some, Columns.within, recordTenant, columns, hdim]
  exact split_dims ..

theorem candidateTenantWhere_eq (h : rowToMemory row = some m) :
    candidateTenantWhere (some t) row = memoryBelongsToTenant m t := by
  obtain ⟨hor, hp, hu, ha⟩ := dims_of_read h
  rw [memoryBelongsToTenant, hor, hp, hu, ha]
  have hdim : ∀ (filter : Option TenantId) (column : Option String),
      candidateDimension (candidateMode (some t) filter) ((filter.map (·.1)).getD "") column =
        (decide (t.organizationWide = some true) || matchesDimension filter column) := by
    intro filter column
    by_cases hwide : t.organizationWide = some true
    · simp [candidateMode, candidateDimension, hwide]
    · cases filter <;> simp [candidateMode, candidateDimension, hwide, matchesDimension]
  simp only [candidateTenantWhere, Option.bind_some, hdim, Option.isSome_some, if_pos,
    Option.map_some, Option.getD_some]
  cases decide (t.organizationWide = some true) <;> simp [Bool.and_assoc]

/-- The record belongs to the tenant and the row is not selected exactly where the filter is
    narrowed. -/
theorem tenantWhere_eq_belongs_iff (h : rowToMemory row = some m) :
    tenantWhere (some t) row = memoryBelongsToTenant m t ↔ ¬ Narrowed t row := by
  obtain ⟨hor, hp, hu, ha⟩ := dims_of_read h
  have hmatch : ∀ (filter : Option TenantId) (column : Option String),
      misses filter column = true → matchesDimension filter column = false := by
    intro filter column hmiss
    cases filter with
    | none => cases hmiss
    | some f => simpa [misses, matchesDimension] using hmiss
  rw [tenantWhere_eq_belongs h, memoryBelongsToTenant, hor, hp, hu, ha, Narrowed]
  have hiff := unsplit_dims (decide (row.tenantId = some t.organizationId.1))
    (decide (t.organizationWide = some true)) (hmatch t.projectId row.projectId)
    (hmatch t.userId row.userId) (hmatch t.agentId row.agentId)
  rwa [decide_eq_true_iff, decide_eq_true_iff] at hiff

theorem id_of_read (h : rowToMemory row = some m) : m.id = row.id := by
  obtain ⟨-, rfl⟩ := rowToMemory_eq_some.mp h
  rfl

/-- Where `tenantWhere` selects the rows that belong to the tenant, all operations do. -/
theorem agree_of_where (h : rowToMemory row = some m) (hget : s.memories.get row.id = some row)
    (hwhere : tenantWhere (some t) row = memoryBelongsToTenant m t) : Agree s t row m := by
  have hsel : Sqlite.selected s.memories row.id (some t) =
      if memoryBelongsToTenant m t then some row else none := by
    rw [Sqlite.selected, hget, ← hwhere]
    cases hsees : tenantWhere (some t) row
    · exact Option.filter_some_neg (by simp [hsees])
    · exact Option.filter_some_pos hsees
  constructor
  case selected => rw [hsel]; split <;> simp [*]
  case get =>
    rw [Sqlite.get, ← Sqlite.selected, hsel]
    split <;> simp [h]
  case all =>
    have hmem : row ∈ s.memories.rows := (Table.get_eq_some.mp hget).1
    simp only [Tables.all, List.mem_filterMap, mem_newestFirst, List.mem_filter, Bool.true_or,
      Bool.and_true]
    constructor
    · rintro ⟨r, ⟨hr, hsees⟩, hread⟩
      have hid : r.id = row.id := by
        rw [← id_of_read hread, id_of_read h]
      obtain rfl : r = row := Option.some.inj ((Table.get_eq_some.mpr ⟨hr, hid⟩).symm.trans hget)
      rw [← hwhere]
      exact hsees
    · exact fun hbelongs => ⟨row, ⟨hmem, hwhere.trans hbelongs⟩, h⟩
  case update =>
    unfold Tables.existing
    rw [id_of_read h, hsel]
    cases hbelongs : memoryBelongsToTenant m t <;> simp [hbelongs]
  case history =>
    intro v hv
    rw [hv, ← hwhere, tenantWhere_eq]
    rfl
  case candidates => exact candidateTenantWhere_eq h
  case file => rfl

end Agree

/-- For the memory in any row and every tenant filter: all operations let the principal see it exactly
    if it belongs to the tenant, unless the filter is organization-wide and yet names a dimension that
    the row misses. Without a filter the generated `WHERE` and the candidate filter both select the
    rows with no tenant. -/
theorem agree_iff {s : Tables} {row : Row} {m : Memory} (h : rowToMemory row = some m)
    (hget : s.memories.get row.id = some row) :
    (∀ t, Agree s t row m ↔ ¬ Narrowed t row) ∧
      tenantWhere none row = decide (row.tenantId = none) ∧
      candidateTenantWhere none row = decide (row.tenantId = none) := by
  refine ⟨fun t => ⟨fun hagree => ?_, fun hnarrow => ?_⟩, rfl, ?_⟩
  · rw [← tenantWhere_eq_belongs_iff h]
    have hsel := hagree.selected
    rw [Sqlite.selected, hget] at hsel
    rw [← hsel]
    cases hsees : tenantWhere (some t) row
    · rw [Option.filter_some_neg (by simp [hsees])]
      rfl
    · rw [Option.filter_some_pos hsees]
      rfl
  · exact agree_of_where h hget ((tenantWhere_eq_belongs_iff h).mpr hnarrow)
  · simp [candidateTenantWhere, candidateMode, candidateDimension]

/-- A memory of the project `p` in the organization `o`. -/
def projectRow : Row :=
  { rowOf tickingConfig.platform (storeRecord tickingConfig.platform 0 "m-1" Store.preference none none)
    with tenantId := some "o", projectId := some "p" }

def projectTables : Tables := { memories := ⟨[projectRow], List.nodup_singleton _⟩ }

theorem agree_iff_projectRow :
    Agree projectTables ⟨⟨"o", by decide⟩, some ⟨"p", by decide⟩, none, none, some true⟩ projectRow
      (memoryOf projectRow) := by
  have hread : rowToMemory projectRow = some (memoryOf projectRow) :=
    rowToMemory_eq_some.mpr ⟨by decide +kernel, rfl⟩
  have hget : projectTables.memories.get projectRow.id = some projectRow := by rfl
  exact ((agree_iff hread hget).1 _).mpr fun hnarrow => absurd hnarrow.2.2 (by decide +kernel)

/-- An organization-wide principal whose filter names the project `q`: `update` and the candidate
    search treat a memory of the project `p` as its own, and `get` does not find it. -/
theorem wide_filter_disagrees :
    ¬ Agree projectTables ⟨⟨"o", by decide⟩, some ⟨"q", by decide⟩, none, none, some true⟩ projectRow
      (memoryOf projectRow) := by
  intro h
  have hsel := h.selected
  revert hsel
  decide +kernel

end Remembra.Sqlite.Serial
