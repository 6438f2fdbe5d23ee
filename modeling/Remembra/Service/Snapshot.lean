import Remembra.Service.Listing

/-! Snapshots: the export of all memories that a caller sees, the schema and the checks that an import
    applies to the data it is handed, and the import itself. A call that may import asks one question
    more than the others, so it is a program over the questions of `Ask` and this one. -/

namespace Remembra.Service
open Store (Memory MemoryType TrustLevel RetentionMode SensitivityBand Relation Provenance
  MemoryOwner MemoryAccess Yaml JsNum StoreInput TenantFilter truthy isSafeScope isTenantIdChar
  isIsoInstant defaultTrust defaultOwner)
open Sqlite.Serial (Tables)
open Prog

/-! ### Snapshots as data -/

/-- The provenance of a memory in a snapshot; older ones have a word in its place. -/
inductive SnapshotProvenance where
  | typed (p : Provenance)
  | explicit
  | auto

/-- A memory in a snapshot, with the keys that the schema does not name at the end. -/
structure SnapshotMemory where
  id : String
  type : MemoryType
  content : String
  scope : String
  tags : List String
  importance : ℤ
  createdAt : String
  updatedAt : String
  source : Option String := none
  lastSeen : Option String := none
  lastValidated : Option String := none
  archivedAt : Option String := none
  provenance : Option SnapshotProvenance := none
  confidence : Option ℚ := none
  trust : Option TrustLevel := none
  retention : Option RetentionMode := none
  owner : Option MemoryOwner := none
  access : Option MemoryAccess := none
  tenantId : Option String := none
  projectId : Option String := none
  userId : Option String := none
  agentId : Option String := none
  metaFields : Option (List (String × Yaml)) := none
  validFrom : Option String := none
  validUntil : Option String := none
  observedAt : Option String := none
  supersededBy : Option String := none
  version : Option ℤ := none
  relations : Option (List Relation) := none
  related : Option (List String) := none
  embedding : Option (List JsNum) := none
  sensitivity : Option SensitivityBand := none
  legalHold : Option Bool := none

structure Snapshot where
  format : String
  version : ℤ
  exportedAt : String
  memories : List SnapshotMemory
  /-- There is an `integrity` beside the memories. -/
  signed : Bool := false

/-- `SNAPSHOT_FORMAT` -/
def snapshotFormat : String := "remembra-export"

/-- A memory as it stands in a snapshot. -/
def snapshotMemory (m : Memory) : SnapshotMemory where
  id := m.id
  type := m.type
  content := m.content
  scope := m.scope
  tags := m.tags
  importance := m.importance
  createdAt := m.createdAt
  updatedAt := m.updatedAt
  source := m.source
  lastSeen := m.lastSeen
  lastValidated := m.lastValidated
  archivedAt := m.archivedAt
  provenance := some (.typed m.provenance)
  confidence := some m.confidence
  trust := some m.trust
  retention := m.retention
  owner := m.owner
  access := m.access
  tenantId := m.tenantId
  projectId := m.projectId
  userId := m.userId
  agentId := m.agentId
  metaFields := m.metaFields
  validFrom := m.validFrom
  validUntil := m.validUntil
  observedAt := m.observedAt
  supersededBy := m.supersededBy
  version := some m.version
  relations := m.relations
  embedding := m.embedding
  sensitivity := m.sensitivity
  legalHold := m.legalHold

/-! ### `SnapshotInput` -/

def isHex (c : Char) : Bool := c.isDigit || ('a' ≤ c && c ≤ 'f')

/-- `MEMORY_ID_RE`: 8 to 32 digits of lower-case hexadecimal, or a UUID. -/
def isMemoryId (s : String) : Bool :=
  let groups := s.toList.splitOn '-'
  groups.all (fun g => g.all isHex) &&
    (groups.map List.length = [8, 4, 4, 4, 12] ||
      (groups.length = 1 && 8 ≤ s.toList.length && s.toList.length ≤ 32))

/-- `TENANT_ID_RE` -/
def isTenantIdText (s : String) : Bool :=
  1 ≤ s.toList.length && s.toList.length ≤ 128 && s.toList.all isTenantIdChar

/-- The keys of `meta` that the schema names. -/
def snapshotMetaKeys : List String :=
  ["injected", "quarantined", "contradicted", "compressedFrom", "compressionAt"]

/-- The values that the schema takes under a key of `meta`. -/
def acceptsMetaField : String × Yaml → Bool
  | ("injected", .bool _) | ("quarantined", .bool _) | ("contradicted", .bool _) => true
  | ("compressedFrom", .seq items) => items.all fun
    | .str _ => true
    | _ => false
  | ("compressionAt", .str _) => true
  | (key, _) => key ∉ snapshotMetaKeys

def acceptsNumber : JsNum → Bool
  | .nan => false
  | _ => true

section Schema
variable (C : Config)

/-- What the schema asks of a memory beyond the types. -/
def acceptsSnapshotMemory (raw : SnapshotMemory) : Bool :=
  isMemoryId raw.id && raw.content ≠ "" && isSafeScope raw.scope &&
    (1 ≤ raw.importance && raw.importance ≤ 5) &&
    raw.confidence.all (fun c => 0 ≤ c && c ≤ 1) &&
    raw.tenantId.all isTenantIdText && raw.projectId.all isTenantIdText &&
    raw.userId.all isTenantIdText && raw.agentId.all isTenantIdText &&
    raw.metaFields.all (fun fields => fields.all acceptsMetaField) &&
    raw.validFrom.all (isIsoInstant C.host) && raw.validUntil.all (isIsoInstant C.host) &&
    raw.observedAt.all (isIsoInstant C.host) && raw.version.all (1 ≤ ·) &&
    raw.relations.all (fun l => l.all fun r => isMemoryId r.id) &&
    raw.embedding.all (fun v => v.all acceptsNumber)

/-- `z.object` drops the keys that it does not name. -/
def strippedMemory (raw : SnapshotMemory) : SnapshotMemory :=
  { raw with
    metaFields := raw.metaFields.map fun fields => fields.filter fun (key, _) => key ∈ snapshotMetaKeys
    sensitivity := none
    legalHold := none }

/-- `SnapshotInput.parse` of data without a signature. -/
def parseSnapshot (data : Snapshot) : Except RemembraError Snapshot :=
  if data.signed then
    .error ⟨.snapshotInvalid, "signed snapshot import requires a configured HMAC key"⟩
  else if data.format = snapshotFormat && 1 ≤ data.version && data.version ≤ 4 &&
      data.memories.length ≤ 100000 && data.memories.all (acceptsSnapshotMemory C) then
    .ok { data with memories := data.memories.map strippedMemory }
  else .error ⟨.snapshotInvalid, C.inputIssue⟩

/-! ### `validateSnapshotSemantics` -/

def invalidSnapshot (condition : Bool) (message : String) : Except RemembraError Unit :=
  if condition then .ok () else .error ⟨.snapshotInvalid, "snapshot validation: " ++ message⟩

def validDate (value label : String) : Except RemembraError Unit :=
  invalidSnapshot (C.host.dateParse value).isSome (label ++ " is not a valid timestamp")

def optionalDate (value : Option String) (label : String) : Except RemembraError Unit :=
  match value with
  | none => .ok ()
  | some value => validDate C value label

/-- The ids that a memory of a snapshot refers to. -/
def snapshotReferences (raw : SnapshotMemory) : List String :=
  (raw.relations.getD []).map (·.id) ++ raw.related.getD [] ++ (truthy raw.supersededBy).toList ++
    metaTexts raw.metaFields "compressedFrom"

/-- `memory.meta?.compressionAt` -/
def compressionAt (raw : SnapshotMemory) : Option String :=
  match (raw.metaFields.getD []).lookup "compressionAt" with
  | some (.str s) => some s
  | _ => none

/-- One round of the loop over the memories. -/
def validateMemory (strictTenant : Bool) (ids : List String) (raw : SnapshotMemory) :
    Except RemembraError Unit := do
  let label := fun (field : String) => "memory " ++ raw.id ++ " " ++ field
  invalidSnapshot (raw.id ∉ ids) ("duplicate memory id " ++ raw.id)
  validDate C raw.createdAt (label "createdAt")
  validDate C raw.updatedAt (label "updatedAt")
  invalidSnapshot ((C.host.dateParse raw.createdAt).all fun created =>
    (C.host.dateParse raw.updatedAt).all fun updated => created ≤ updated)
    (label "createdAt is after updatedAt")
  optionalDate C raw.lastSeen (label "lastSeen")
  optionalDate C raw.lastValidated (label "lastValidated")
  optionalDate C raw.archivedAt (label "archivedAt")
  optionalDate C raw.validFrom (label "validFrom")
  optionalDate C raw.validUntil (label "validUntil")
  optionalDate C raw.observedAt (label "observedAt")
  optionalDate C (compressionAt raw) (label "compressionAt")
  invalidSnapshot (!strictTenant || raw.tenantId.isSome ||
      (raw.projectId.isNone && raw.userId.isNone && raw.agentId.isNone))
    (label "has tenant dimensions without tenantId")
  invalidSnapshot (!strictTenant || raw.relations.getD [] = [] || raw.related.getD [] = [])
    (label "contains both relations and legacy related fields")
  invalidSnapshot (raw.id ∉ snapshotReferences raw) (label "contains a self-reference")

def validateMemories (strictTenant : Bool) (ids : List String) :
    List SnapshotMemory → Except RemembraError Unit
  | [] => .ok ()
  | raw :: rest => do
    validateMemory C strictTenant ids raw
    validateMemories strictTenant (raw.id :: ids) rest

/-- `fits` is whether the serialized snapshot has at most 100 MiB. -/
def validateSnapshotSemantics (fits : Snapshot → Bool) (strictTenant : Bool) (snap : Snapshot) :
    Except RemembraError Unit := do
  invalidSnapshot (fits snap) "snapshot exceeds 104857600 bytes"
  validDate C snap.exportedAt "exportedAt"
  validateMemories C strictTenant [] snap.memories

/-! ### `prepareSnapshotImport` -/

/-- The tenant of a memory is the caller's. -/
def assertSnapshotTenant (tenant : Option TenantFilter) (raw : SnapshotMemory) :
    Except RemembraError Unit :=
  match tenant with
  | none =>
    if (truthy raw.tenantId).isSome then
      .error ⟨.snapshotInvalid, "tenant-bearing snapshot requires a tenant-scoped destination"⟩
    else .ok ()
  | some t =>
    if (truthy raw.tenantId).isNone then
      .error ⟨.snapshotInvalid, "tenant-scoped restore requires tenant metadata"⟩
    else if !resourceBelongsToTenant ⟨raw.tenantId, raw.projectId, raw.userId, raw.agentId⟩ t then
      .error ⟨.snapshotInvalid, "snapshot dimensions do not match the trusted tenant context"⟩
    else .ok ()

def snapshotProvenance (raw : SnapshotMemory) : Provenance :=
  match raw.provenance with
  | some (.typed p) => p
  | some .auto => { sourceType := .conversation }
  | some .explicit => { sourceType := .manual }
  | none => { sourceType := .manual }

/-- The record of a memory of a snapshot, with what older snapshots do not have. -/
def normalizedMemory (tenant : Option TenantFilter) (raw : SnapshotMemory) : Memory :=
  let provenance := snapshotProvenance raw
  { id := raw.id
    type := raw.type
    content := raw.content
    scope := raw.scope
    tenantId := (tenant.map (·.organizationId.1)).or raw.tenantId
    projectId := (tenant.bind fun t => t.projectId.map (·.1)).or raw.projectId
    userId := (tenant.bind fun t => t.userId.map (·.1)).or raw.userId
    agentId := (tenant.bind fun t => t.agentId.map (·.1)).or raw.agentId
    tags := raw.tags
    importance := raw.importance
    confidence := raw.confidence.getD (if provenance.sourceType = .conversation then 7 / 10 else 1)
    trust := raw.trust.getD (defaultTrust provenance.sourceType)
    source := raw.source
    createdAt := raw.createdAt
    updatedAt := raw.updatedAt
    lastSeen := raw.lastSeen
    lastValidated := raw.lastValidated
    archivedAt := raw.archivedAt
    version := raw.version.getD 1
    provenance := provenance
    relations := raw.relations.or (raw.related.map fun l => l.map fun id => ⟨id, .related⟩)
    retention := raw.retention
    sensitivity := raw.sensitivity
    legalHold := raw.legalHold
    owner := raw.owner
    access := raw.access
    metaFields := raw.metaFields
    validFrom := raw.validFrom
    validUntil := raw.validUntil
    observedAt := raw.observedAt
    supersededBy := raw.supersededBy
    embedding := raw.embedding }

/-- What the agent checks read of a record. -/
def writeInput (m : Memory) : StoreInput where
  type := m.type
  content := m.content
  scope := m.scope
  provenance := some (provenanceInput m.provenance)
  owner := m.owner
  access := m.access

/-- The record with the owner, the access and the provenance that the policy gives it. -/
def ownedMemory (options : Options) (m : Memory) : Except RemembraError Memory :=
  if C.agentMode then
    (canonicalizeAgentInput C (writeInput m) options).map fun policy =>
      { m with provenance := rawProvenance policy.provenance, owner := policy.owner
               access := policy.access }
  else .ok { m with owner := m.owner.or (some (defaultOwner m.provenance))
                    access := m.access.or (some .global) }

/-- The record with its content and tags redacted and the policy for sensitive data applied. -/
def cleanedMemory (m : Memory) : Except RemembraError Memory :=
  let cleaned := (redactPair C m.content m.tags).getD (m.content, m.tags)
  (applySensitivePolicy C ⟨cleaned.1, some m.trust, m.metaFields⟩).map fun held =>
    { m with content := held.content, tags := cleaned.2, trust := held.trust.getD m.trust
             metaFields := held.metaFields.or m.metaFields }

/-- The record that is imported for a memory of a snapshot. -/
def preparedMemory (options : Options) (tenant : Option TenantFilter) (raw : SnapshotMemory) :
    Except RemembraError Memory := do
  let m ← ownedMemory C options (normalizedMemory tenant raw)
  let m ← cleanedMemory C m
  assertAgentWrite C (writeInput m) options
  .ok m

structure Preparation where
  ids : List String
  keys : List String
  prepared : List Memory := []
  skipped : ℕ := 0

def snapshotKey (raw : SnapshotMemory) : String := dedupKey C raw.type raw.content raw.scope

/-- One round of the loop: a memory whose id or content is there already is skipped. -/
def prepareOne (options : Options) (tenant : Option TenantFilter) (st : Preparation)
    (raw : SnapshotMemory) : Except RemembraError Preparation := do
  assertSnapshotTenant tenant raw
  if raw.id ∈ st.ids || snapshotKey C raw ∈ st.keys then .ok { st with skipped := st.skipped + 1 }
  else
    (preparedMemory C options tenant raw).map fun m =>
      { st with ids := st.ids ++ [m.id], keys := st.keys ++ [snapshotKey C raw]
                prepared := st.prepared ++ [m] }

def prepareAll (options : Options) (tenant : Option TenantFilter) :
    Preparation → List SnapshotMemory → Except RemembraError Preparation
  | st, [] => .ok st
  | st, raw :: rest => do
    let st ← prepareOne C options tenant st raw
    prepareAll options tenant st rest

/-- The ids that a record refers to. -/
def memoryReferences (m : Memory) : List String :=
  (m.relations.getD []).map (·.id) ++ (truthy m.supersededBy).toList ++
    metaTexts m.metaFields "compressedFrom"

/-- The record without edges to memories that are there and hidden. -/
def withoutHidden (hidden : List String) (m : Memory) : Memory :=
  let relations := (m.relations.getD []).filter fun r => r.id ∉ hidden
  if relations.length = (m.relations.getD []).length then m
  else { m with relations := if relations = [] then none else some relations }

variable (fits : Snapshot → Bool)

structure PreparedImport where
  prepared : List Memory
  skipped : ℕ
  tenant : Option TenantFilter

/-- `prepareSnapshotImport` of data that reads so: by its schema, or with its signature verified. -/
def prepareReadImport (read : Except RemembraError Snapshot) (options : Options) :
    Act PreparedImport := do
  let tenant ← freshTenantFilter C options .write (some .snapshotRestore)
  let snap ← Act.ofRefusal read
  Act.ofRefusal (validateSnapshotSemantics C fits tenant.isSome snap)
  let allExisting ← Act.all true tenant
  let existing ← readable C options allExisting
  let hidden := (allExisting.map (·.id)).filter fun id => id ∉ existing.map (·.id)
  let st ← Act.ofRefusal (prepareAll C options tenant
    { ids := existing.map (·.id), keys := existing.map fun m => dedupKey C m.type m.content m.scope }
    snap.memories)
  let allowed := existing.map (·.id) ++ st.prepared.map (·.id)
  Prog.each st.prepared fun m =>
    assertTenantReferences C ((memoryReferences m).filter (· ∉ allowed)) options tenant
  pure ⟨st.prepared.map (withoutHidden hidden), st.skipped, tenant⟩

/-- `prepareSnapshotImport` without a key to verify signatures with. -/
def prepareSnapshotImport (data : Snapshot) (options : Options) : Act PreparedImport :=
  prepareReadImport C fits (parseSnapshot C data) options

structure SnapshotPreview where
  total : ℕ
  imported : ℕ
  skipped : ℕ

/-- `exportSnapshot` without a key to sign with. -/
def exportSnapshot (options : Options) : Act Snapshot := do
  let tenant ← freshTenantFilter C options .read (some .snapshotCreate)
  let all ← Act.all true tenant
  let visible ← readable C options all
  let now ← Act.now
  pure {
    format := snapshotFormat
    version := if tenant.isSome then 4 else 3
    exportedAt := C.host.toISOString now
    memories := visible.map fun m => snapshotMemory (sanitizeMemory m (visible.map (·.id))) }

end Schema

/-! ### What an import prepares -/

section Prepared
variable {C : Config} {options : Options} {tenant : Option TenantFilter}

theorem except_bind_eq_ok {ε α β : Type} {x : Except ε α} {f : α → Except ε β} {b : β} :
    (x >>= f) = .ok b ↔ ∃ a, x = .ok a ∧ f a = .ok b := by
  cases x with
  | error e => exact iff_of_false (fun h => by cases h) (by rintro ⟨a, ⟨⟩, -⟩)
  | ok a => exact ⟨fun h => ⟨a, rfl, h⟩, by rintro ⟨_, ⟨⟩, h⟩; exact h⟩

theorem except_map_eq_ok {ε α β : Type} {x : Except ε α} {f : α → β} {b : β} :
    x.map f = .ok b ↔ ∃ a, x = .ok a ∧ f a = b := by
  cases x <;> simp [Except.map]

/-- Data that is parsed has the keys of the schema, and each memory of it passes the schema. -/
theorem parseSnapshot_eq_ok {data snap : Snapshot} : parseSnapshot C data = .ok snap ↔
    data.signed = false ∧ (data.format = snapshotFormat ∧ 1 ≤ data.version ∧ data.version ≤ 4) ∧
      data.memories.length ≤ 100000 ∧ (∀ raw ∈ data.memories, acceptsSnapshotMemory C raw = true) ∧
      snap = { data with memories := data.memories.map strippedMemory } := by
  unfold parseSnapshot
  cases data.signed with
  | true => simp
  | false =>
    simp only [Bool.false_eq_true, if_false, Bool.and_eq_true, decide_eq_true_eq, List.all_eq_true]
    split_ifs with hvalid
    · obtain ⟨⟨⟨⟨hformat, hlow⟩, hhigh⟩, hcount⟩, hall⟩ := hvalid
      simp only [Except.ok.injEq, eq_comm (a := snap)]
      exact ⟨fun h => ⟨trivial, ⟨hformat, hlow, hhigh⟩, hcount, hall, h⟩, fun h => h.2.2.2.2⟩
    · refine iff_of_false (fun h => by cases h) ?_
      rintro ⟨-, ⟨hformat, hlow, hhigh⟩, hcount, hall, -⟩
      exact hvalid ⟨⟨⟨⟨hformat, hlow⟩, hhigh⟩, hcount⟩, hall⟩

theorem ownedMemory_texts {m owned : Memory} (h : ownedMemory C options m = .ok owned) :
    owned.content = m.content ∧ owned.tags = m.tags := by
  unfold ownedMemory at h
  split at h
  · obtain ⟨policy, -, rfl⟩ := except_map_eq_ok.mp h
    exact ⟨rfl, rfl⟩
  · cases h
    exact ⟨rfl, rfl⟩

/-- The content and the tags of a prepared record. -/
theorem preparedMemory_texts {raw : SnapshotMemory} {m : Memory}
    (h : preparedMemory C options tenant raw = .ok m) :
    ∃ trust metaFields held,
      let cleaned := (redactPair C raw.content raw.tags).getD (raw.content, raw.tags)
      applySensitivePolicy C ⟨cleaned.1, trust, metaFields⟩ = .ok held ∧
        m.content = held.content ∧ m.tags = cleaned.2 := by
  obtain ⟨owned, howned, h⟩ := except_bind_eq_ok.mp h
  obtain ⟨cleaned, hcleaned, h⟩ := except_bind_eq_ok.mp h
  obtain ⟨_, -, h⟩ := except_bind_eq_ok.mp h
  obtain ⟨hcontent, htags⟩ := ownedMemory_texts howned
  obtain ⟨held, hheld, rfl⟩ := except_map_eq_ok.mp hcleaned
  cases h
  rw [hcontent, htags] at hheld ⊢
  exact ⟨_, _, held, hheld, rfl, rfl⟩

/-- What each prepared record has, all of them have. -/
theorem forall_prepareAll {P : Memory → Prop} {raws : List SnapshotMemory} {st st' : Preparation}
    (h : prepareAll C options tenant st raws = .ok st') (hst : ∀ m ∈ st.prepared, P m)
    (hraw : ∀ raw ∈ raws, ∀ m, assertSnapshotTenant tenant raw = .ok () →
      preparedMemory C options tenant raw = .ok m → P m) : ∀ m ∈ st'.prepared, P m := by
  induction raws generalizing st with
  | nil =>
    cases h
    exact hst
  | cons raw rest ih =>
    obtain ⟨next, hone, hrest⟩ := except_bind_eq_ok.mp h
    refine ih hrest ?_ fun raw hmem => hraw raw (List.mem_cons_of_mem _ hmem)
    obtain ⟨_, htenant, hone⟩ := except_bind_eq_ok.mp hone
    split at hone
    · cases hone
      exact hst
    · obtain ⟨m, hm, rfl⟩ := except_map_eq_ok.mp hone
      intro x hx
      rcases List.mem_append.mp hx with hx | hx
      · exact hst x hx
      · rw [List.mem_singleton.mp hx]
        exact hraw raw (List.mem_cons_self ..) m htenant hm

end Prepared

/-! ### Calls that import -/

inductive Demand where
  | ask (q : Ask)
  | importBatch (memories : List Memory) (tenant : Option TenantFilter)

@[reducible] def Demand.Answer : Demand → Type
  | .ask q => q.Answer
  | .importBatch .. => Except Thrown (ℕ × ℕ)

/-- A call that may import. -/
abbrev Job := Prog Demand Demand.Answer Thrown

/-- A call that does not. -/
def lifted {α : Type} : Act α → Job α
  | Prog.done a => Prog.done a
  | Prog.fail e => Prog.fail e
  | Prog.ask q next => Prog.ask (.ask q) fun a => lifted (next a)

section Import
variable (C : Config) (E : Environment) (fits : Snapshot → Bool)

/-- `importSnapshot`: how many memories were imported and how many skipped. -/
def importSnapshot (data : Snapshot) (options : Options) : Job (ℕ × ℕ) := do
  let p ← lifted (prepareSnapshotImport C fits data options)
  let answer ← Prog.request (Demand.importBatch p.prepared p.tenant)
  let (imported, skipped) ← Prog.ofExcept answer
  pure (imported, p.skipped + skipped)

def handleDemand : (q : Demand) → World → q.Answer × World
  | .ask q, w => handle C E q w
  | .importBatch memories tenant, w =>
    let r := Tables.importBatch C.backend w.tables (E.writeClock w.writes) memories tenant
    ((r.1.mapError ofFailure).map fun answer => (answer.1.length, answer.2), w.written r.2)

end Import

end Remembra.Service
