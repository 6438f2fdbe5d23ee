import Remembra.Lib.Table
import Remembra.Store.Codec

/-! The table `memories` of the SQLite backend: a row is a record with its `NULL`s, `rowToMemory` reads
    one back and `tenantWhere` is the tenant's part of every `WHERE`. JSON columns are the values they
    stand for; the tables of versions, of audit events and of the full-text index are written beside
    it and never decide what is written here, so they are left out. -/

namespace Remembra.Sqlite
open Store

/-- What the backend uses of the platform besides what every store does. -/
structure Platform where
  host : Host
  /-- `REMEMBRA_DEFAULT_ACCESS` -/
  access : Option String := none
  /-- A number as a blob of 32-bit floats keeps it. -/
  fround : JsNum → JsNum

/-- A row of the table `memories`. -/
structure Row where
  id : String
  type : MemoryType
  content : String
  scope : String
  tenantId : Option String
  projectId : Option String
  userId : Option String
  agentId : Option String
  tags : List String
  importance : ℤ
  confidence : ℚ
  trust : TrustLevel
  provenance : Provenance
  owner : MemoryOwner
  access : MemoryAccess
  validFrom : Option String
  validUntil : Option String
  observedAt : Option String
  supersededBy : Option String
  metaFields : Option (List (String × Yaml))
  sensitivity : SensitivityBand
  legalHold : Bool
  retention : RetentionMode
  relations : List Relation
  version : ℤ
  createdAt : String
  updatedAt : String
  lastSeen : Option String
  archivedAt : Option String
  embedding : Option (List JsNum)

abbrev Memories := Table Row.id

/-- `tenantWhere`: the row is the filter's organization's, and each dimension is the filter's or,
    unless the filter is organization-wide, `NULL` where the filter has none. -/
def tenantWhere (tenant : Option TenantFilter) (row : Row) : Bool :=
  match tenant with
  | none => row.tenantId = none
  | some t =>
    let dimension (value : Option TenantId) (column : Option String) : Bool :=
      match value with
      | some v => column = some v.1
      | none => t.organizationWide = some true || column = none
    row.tenantId = some t.organizationId.1 && dimension t.projectId row.projectId &&
      dimension t.userId row.userId && dimension t.agentId row.agentId

section Rows
variable (P : Platform)

/-- `embedToBlob` -/
def embedToBlob (embedding : Option (List JsNum)) : Option (List JsNum) :=
  (embedding.filter fun ns => ns ≠ []).map fun ns => ns.map P.fround

/-- The row that `insertRow` inserts. -/
def rowOf (m : Memory) : Row where
  id := m.id
  type := m.type
  content := m.content
  scope := m.scope
  tenantId := m.tenantId
  projectId := m.projectId
  userId := m.userId
  agentId := m.agentId
  tags := m.tags
  importance := m.importance
  confidence := m.confidence
  trust := m.trust
  provenance := m.provenance
  owner := m.owner.getD .global
  access := m.access.getD .global
  validFrom := m.validFrom
  validUntil := m.validUntil
  observedAt := m.observedAt
  supersededBy := m.supersededBy
  metaFields := m.metaFields
  sensitivity := m.sensitivity.getD .isPublic
  legalHold := m.legalHold = some true
  retention := m.retention.getD .decaying
  relations := m.relations.getD []
  version := m.version
  createdAt := m.createdAt
  updatedAt := m.updatedAt
  lastSeen := m.lastSeen
  archivedAt := m.archivedAt
  embedding := embedToBlob P m.embedding

/-- The columns that `update` sets: all but the id, `sensitivity` and `legal_hold`. -/
def setUpdated (m : Memory) (row : Row) : Row :=
  { rowOf P m with id := row.id, sensitivity := row.sensitivity, legalHold := row.legalHold }

/-- The record in a row, before `rowToMemory` looks at whether it can be one. -/
def memoryOf (row : Row) : Memory where
  id := row.id
  type := row.type
  content := row.content
  scope := row.scope
  tenantId := truthy row.tenantId
  projectId := truthy row.projectId
  userId := truthy row.userId
  agentId := truthy row.agentId
  tags := row.tags
  importance := min 5 (max 1 row.importance)
  confidence := min 1 (max 0 row.confidence)
  trust := row.trust
  provenance := row.provenance
  owner := some row.owner
  access := some row.access
  validFrom := truthy row.validFrom
  validUntil := truthy row.validUntil
  observedAt := truthy row.observedAt
  supersededBy := truthy row.supersededBy
  metaFields := row.metaFields
  sensitivity := some row.sensitivity
  legalHold := some row.legalHold
  retention := some row.retention
  relations := if row.relations = [] then none else some row.relations
  version := row.version
  createdAt := row.createdAt
  updatedAt := row.updatedAt
  lastSeen := truthy row.lastSeen
  archivedAt := truthy row.archivedAt
  embedding := row.embedding

end Rows

def hasDots : List Char → Bool
  | '.' :: '.' :: _ => true
  | _ :: l => hasDots l
  | [] => false

/-- `assertScope` lets the scope pass. -/
def assertScope (scope : String) : Bool :=
  scope ≠ "" && !hasDots scope.toList && '\\' ∉ scope.toList

/-- `rowToMemory`; a row that is no record reads as none. -/
def rowToMemory (row : Row) : Option Memory :=
  if row.id ≠ "" && assertScope row.scope && row.tenantId.all isValidTenantId &&
      row.projectId.all isValidTenantId && row.userId.all isValidTenantId &&
      row.agentId.all isValidTenantId && row.content ≠ "" then
    some (memoryOf row)
  else none

/-- The row can be a record. -/
def isReadable (row : Row) : Bool :=
  row.id ≠ "" && assertScope row.scope && row.tenantId.all isValidTenantId &&
    row.projectId.all isValidTenantId && row.userId.all isValidTenantId &&
    row.agentId.all isValidTenantId && row.content ≠ ""

theorem rowToMemory_eq (row : Row) :
    rowToMemory row = if isReadable row then some (memoryOf row) else none := rfl

theorem rowToMemory_eq_some {row : Row} {m : Memory} :
    rowToMemory row = some m ↔ isReadable row = true ∧ m = memoryOf row := by
  rw [rowToMemory_eq]
  split <;> simp [*, eq_comm]

/-- `assertUsableInstants` -/
def usableInstants (h : Host) (input : StoreInput) : Bool :=
  input.validFrom.all (isIsoInstant h) && input.validUntil.all (isIsoInstant h) &&
    input.observedAt.all (isIsoInstant h)

/-- The record that `store` inserts. -/
def storeRecord (P : Platform) (now : ℤ) (id : String) (input : StoreInput)
    (embedding : Option (List JsNum)) (tenant : Option TenantFilter) : Memory :=
  { Store.storeRecord P.host P.access now id input embedding tenant with
    sensitivity := input.sensitivity
    legalHold := input.legalHold.filter fun b => b = true }

def get (memories : Memories) (id : String) (tenant : Option TenantFilter) : Option Memory :=
  ((memories.get id).filter (tenantWhere tenant)).bind rowToMemory

end Remembra.Sqlite
