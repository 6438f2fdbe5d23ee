import Mathlib.Data.String.Basic
import Remembra.Lib.Retained
import Remembra.Sqlite.Optimistic

/-! The backend of one process: `withLock` runs its calls one after another, so a call is a function of
    the tables. Beside `memories` there are the tables of versions and of audit events and the full-text
    index. A call that throws keeps what its statements have written, as only `importBatch` is one
    transaction. -/

namespace Remembra.Sqlite.Serial
open Store (Memory StoreInput TenantFilter UpdateOptions JsNum Provenance MemoryType truthy
  memoryBelongsToTenant versionMismatch)

/-! ### Rows of the other tables -/

/-- The tenant's columns of a row. -/
structure Columns where
  tenantId : Option String := none
  projectId : Option String := none
  userId : Option String := none
  agentId : Option String := none
  deriving DecidableEq

/-- A tenant filter as the code passes it on: with dimensions of a row in it, it is not one that a
    schema has accepted. -/
structure RecordTenant where
  organizationId : String
  projectId : Option String := none
  userId : Option String := none
  agentId : Option String := none
  organizationWide : Bool := false
  deriving DecidableEq

/-- One dimension of `tenantWhere`. -/
def dimensionWhere (wide : Bool) (value column : Option String) : Bool :=
  match truthy value with
  | some v => column = some v
  | none => wide || column = none

/-- `tenantWhere` on the columns. -/
def Columns.within (c : Columns) : Option RecordTenant → Bool
  | none => c.tenantId = none
  | some t => c.tenantId = some t.organizationId &&
      dimensionWhere t.organizationWide t.projectId c.projectId &&
      dimensionWhere t.organizationWide t.userId c.userId &&
      dimensionWhere t.organizationWide t.agentId c.agentId

def recordTenant (t : TenantFilter) : RecordTenant where
  organizationId := t.organizationId.1
  projectId := t.projectId.map (·.1)
  userId := t.userId.map (·.1)
  agentId := t.agentId.map (·.1)
  organizationWide := t.organizationWide = some true

/-- The columns written for a tenant. -/
def columnsOf : Option RecordTenant → Columns
  | none => {}
  | some t => ⟨some t.organizationId, t.projectId, t.userId, t.agentId⟩

def columns (row : Row) : Columns := ⟨row.tenantId, row.projectId, row.userId, row.agentId⟩

/-- The dimensions of a record, key by key; a key that is not there is none. -/
structure Dimensions where
  projectId : Option (Option String)
  userId : Option (Option String)
  agentId : Option (Option String)

/-- `memoryDimensions`: the dimensions that the memory has. -/
def memoryDimensions (m : Memory) : Dimensions where
  projectId := (truthy m.projectId).map some
  userId := (truthy m.userId).map some
  agentId := (truthy m.agentId).map some

/-- The dimensions of a row, each key there. -/
def rowDimensions (row : Row) : Dimensions where
  projectId := some row.projectId
  userId := some row.userId
  agentId := some row.agentId

/-- `tenant && dimensions ? { ...tenant, ...dimensions, organizationWide: false } : tenant` -/
def withDimensions (tenant : Option TenantFilter) (dimensions : Option Dimensions) :
    Option RecordTenant :=
  match tenant, dimensions with
  | some t, some d => some {
      organizationId := t.organizationId.1
      projectId := d.projectId.getD (recordTenant t).projectId
      userId := d.userId.getD (recordTenant t).userId
      agentId := d.agentId.getD (recordTenant t).agentId }
  | _, _ => tenant.map recordTenant

/-- A row of `memory_versions`; the rows stand in the order of their ids. -/
structure VersionRow where
  id : ℕ
  memoryId : String
  tenant : Columns
  content : String
  reason : Option String
  createdAt : String
  deriving DecidableEq

inductive Action where
  | store | update | archive | revive | forget | import
  deriving DecidableEq

/-- The value of the column `details`. -/
structure Details where
  type : Option MemoryType := none
  scope : Option String := none
  reason : Option String := none
  /-- Agent id, type and version, conversation, task and run. -/
  actor : Option (List (Option String)) := none
  deriving DecidableEq

/-- A row of `memory_audit`; the rows stand in the order of their ids. -/
structure AuditRow where
  memoryId : String
  tenant : Columns
  action : Action
  details : Option Details
  createdAt : String
  deriving DecidableEq

/-- `sequence` counts the ids that `memory_versions` has given out; `fts` holds the rows that the
    full-text index has an entry for. -/
structure Tables where
  memories : Memories := .empty
  versions : List VersionRow := []
  sequence : ℕ := 0
  audit : List AuditRow := []
  fts : List String := []

/-- What a call throws. -/
inductive Failure where
  | refused (error : RemembraError)
  /-- `SQLITE_CONSTRAINT` -/
  | constraint
  /-- The host's `beforeMutation` hook has thrown. -/
  | hook
  deriving DecidableEq

structure Config where
  platform : Platform
  /-- `REMEMBRA_HISTORY_LIMIT` -/
  historyLimit : ℕ := 20
  ftsEnabled : Bool := true
  /-- The hook lets the import of this id pass. -/
  beforeImport : String → Bool := fun _ => true

/-! ### Statements -/

section Statements
variable (C : Config)

def stamp (now : ℤ) : String := C.platform.host.toISOString now

/-- The `CHECK` constraints on numbers; those on texts are in the types. -/
def checks (row : Row) : Bool :=
  1 ≤ row.importance && row.importance ≤ 5 && 0 ≤ row.confidence && row.confidence ≤ 1

/-- The row that `audit` inserts. -/
def auditRow (now : ℤ) (action : Action) (id : String) (details : Option Details)
    (provenance : Option Provenance) (tenant : Option TenantFilter) (dims : Option Dimensions) :
    AuditRow :=
  let actor := (provenance.filter fun p => (truthy p.agentId).isSome).map fun p =>
    [p.agentId, p.agentType, p.agentVersion, p.conversationId, p.taskId, p.runId]
  { memoryId := id
    tenant := columnsOf (withDimensions tenant dims)
    action := action
    details := if details.isSome || actor.isSome then some { details.getD {} with actor := actor }
      else none
    createdAt := stamp C now }

/-- `audit` -/
def Tables.record (s : Tables) (row : AuditRow) : Tables := { s with audit := s.audit ++ [row] }

/-- The entry of the full-text index; the index refuses a second one for a row. -/
def Tables.insertFts (s : Tables) (id : String) : Option Tables :=
  if C.ftsEnabled then if id ∈ s.fts then none else some { s with fts := id :: s.fts } else some s

def Tables.deleteFts (s : Tables) (id : String) : Tables :=
  if C.ftsEnabled then { s with fts := s.fts.filter (· ≠ id) } else s

/-- `insertRow`; the row stays where the index refuses it. -/
def Tables.insertRow (s : Tables) (m : Memory) : Except Failure Unit × Tables :=
  let row := rowOf C.platform m
  if !checks row then (.error .constraint, s)
  else match s.memories.insert row with
    | none => (.error .constraint, s)
    | some memories =>
      match Tables.insertFts C { s with memories := memories } m.id with
      | none => (.error .constraint, { s with memories := memories })
      | some s => (.ok (), s)

/-- The `SELECT id` in the `DELETE` of `snapshotHistory`. -/
def keptIds (limit : ℕ) (id : String) (tenant : Option RecordTenant) (versions : List VersionRow) :
    List ℕ :=
  ((newestFirst VersionRow.createdAt (versions.filter fun v =>
    v.memoryId = id && v.tenant.within tenant)).take limit).map VersionRow.id

/-- The `DELETE` of `snapshotHistory`: what lies within the tenant's slice and is not selected goes. -/
def prune (limit : ℕ) (id : String) (tenant : Option RecordTenant) (versions : List VersionRow) :
    List VersionRow :=
  versions.filter fun v => !(v.tenant.within tenant && v.id ∉ keptIds limit id tenant versions)

/-- `snapshotHistory` -/
def Tables.snapshotHistory (s : Tables) (now : ℤ) (id : String) (oldContent : String)
    (reason : Option String) (tenant : Option TenantFilter) (dims : Dimensions) : Tables :=
  if C.historyLimit = 0 then s
  else
    let scope := withDimensions tenant (some dims)
    let row : VersionRow := {
      id := s.sequence + 1
      memoryId := id
      tenant := columnsOf scope
      content := oldContent
      reason := reason
      createdAt := stamp C now }
    { s with
      versions := prune C.historyLimit id scope (s.versions ++ [row])
      sequence := s.sequence + 1 }

/-! ### Calls -/

/-- The field that `assertUsableInstants` refuses. -/
def unusableInstant (h : Store.Host) (input : StoreInput) : Option (String × String) :=
  [("validFrom", input.validFrom), ("validUntil", input.validUntil),
    ("observedAt", input.observedAt)].findSome? fun (field, value) =>
      (value.filter fun v => !Store.isIsoInstant h v).map fun v => (field, Jobs.trim v)

def Tables.store (s : Tables) (now : ℤ) (id : String) (input : StoreInput)
    (embedding : Option (List JsNum)) (tenant : Option TenantFilter) :
    Except Failure Memory × Tables :=
  match unusableInstant C.platform.host input with
  | some (field, text) => (.error (.refused ⟨.invalidInput, field ++
      " must be an ISO-8601 instant with an explicit UTC offset or Z; got \"" ++ text ++ "\""⟩), s)
  | none =>
    let memory := storeRecord C.platform now id input embedding tenant
    match Tables.insertRow C s memory with
    | (.error e, s) => (.error e, s)
    | (.ok _, s) =>
      (.ok memory, s.record (auditRow C now .store memory.id
        (some { type := some memory.type, scope := some memory.scope }) (some memory.provenance) tenant
        (some (memoryDimensions memory))))

/-- The row that `update` writes, after the checks before it. -/
def Tables.existing (s : Tables) (memory : Memory) (options : UpdateOptions)
    (tenant : Option TenantFilter) : Except RemembraError Row :=
  if !tenant.all (memoryBelongsToTenant memory) then .error (notFound memory.id)
  else if tenant.isNone && (truthy memory.tenantId).isSome then .error (notFound memory.id)
  else match selected s.memories memory.id tenant with
    | none => .error (notFound memory.id)
    | some row =>
      if options.expectedVersion.any (· ≠ row.version) then
        .error (versionMismatch memory.id (options.expectedVersion.getD 0) row.version)
      else .ok row

/-- The record that `update` writes over a row. -/
def updatedOver (now : ℤ) (row : Row) (memory : Memory) : Memory :=
  updatedFrom C.platform now
    ⟨row.version, row.content, row.tenantId, row.projectId, row.userId, row.agentId⟩ memory

/-- A version of the old content, if the content changes. -/
def Tables.snapshot (s : Tables) (now : ℤ) (row : Row) (memory : Memory) (options : UpdateOptions)
    (tenant : Option TenantFilter) : Tables :=
  if memory.content = row.content then s
  else Tables.snapshotHistory C s now memory.id row.content options.reason tenant (rowDimensions row)

def Tables.update (s : Tables) (now : ℤ) (memory : Memory) (options : UpdateOptions)
    (tenant : Option TenantFilter) : Except Failure Memory × Tables :=
  match s.existing memory options tenant with
  | .error e => (.error (.refused e), s)
  | .ok row =>
    let updated := updatedOver C now row memory
    let s := Tables.snapshot C s now row memory options tenant
    if !checks (setUpdated C.platform updated row) then (.error .constraint, s)
    else
      let (memories, changes) := s.memories.updateWhere
        (versionWhere memory.id tenant row.version) (setUpdated C.platform updated) fun _ => rfl
      if changes = 0 then (.error (.refused (versionMismatch memory.id row.version row.version)), s)
      else
        let s := { s with memories := memories }
        let s := if updated.content = row.content || !C.ftsEnabled then s
          else { s with fts := memory.id :: s.fts.filter (· ≠ memory.id) }
        (.ok updated, s.record (auditRow C now .update updated.id (some { reason := options.reason })
          (some updated.provenance) tenant (some (memoryDimensions updated))))

def Tables.archive (s : Tables) (now : ℤ) (id : String) (tenant : Option TenantFilter) :
    Except Failure (Option Memory) × Tables :=
  match (selected s.memories id tenant).filter fun row => row.archivedAt = none with
  | none => (.ok none, s)
  | some row =>
    let s := { s with memories :=
      (s.memories.updateWhere (idWhere id tenant) (setArchived (stamp C now)) fun _ => rfl).1 }
    let updated := rowToMemory (setArchived (stamp C now) row)
    (.ok updated, (Tables.deleteFts C s id).record (auditRow C now .archive id none
      (updated.map (·.provenance)) tenant (updated.map memoryDimensions)))

def Tables.revive (s : Tables) (now : ℤ) (id : String) (tenant : Option TenantFilter) :
    Except Failure (Option Memory) × Tables :=
  match (selected s.memories id tenant).filter fun row => row.archivedAt ≠ none with
  | none => (.ok none, s)
  | some row =>
    let s := { s with memories :=
      (s.memories.updateWhere (idWhere id tenant) (setRevived (stamp C now)) fun _ => rfl).1 }
    match Tables.insertFts C s id with
    | none => (.error .constraint, s)
    | some s =>
      let updated := rowToMemory (setRevived (stamp C now) row)
      (.ok updated, s.record (auditRow C now .revive id none
        (updated.map (·.provenance)) tenant (updated.map memoryDimensions)))

/-- The foreign key of `memory_audit` stops the last `DELETE` where an audit row of the memory is
    left; the versions that are left go with the memory. -/
def Tables.forget (s : Tables) (now : ℤ) (id : String) (tenant : Option TenantFilter) :
    Except Failure Bool × Tables :=
  match selected s.memories id tenant with
  | none => (.ok false, s)
  | some row =>
    let s := s.record (auditRow C now .forget id none (some row.provenance) tenant
      (some (rowDimensions row)))
    let s := Tables.deleteFts C s id
    let child := tenant.map recordTenant
    let s := { s with
      audit := s.audit.filter fun a => !(a.memoryId = id && a.tenant.within child)
      versions := s.versions.filter fun v => !(v.memoryId = id && v.tenant.within child) }
    if s.audit.any fun a => a.memoryId = id then (.error .constraint, s)
    else
      let (memories, changes) := s.memories.deleteWhere (idWhere id tenant)
      (.ok (changes ≠ 0), { s with
        memories := memories
        versions := s.versions.filter fun v => v.memoryId ≠ id })

/-- `importMemoryLocked` -/
def Tables.importMemory (s : Tables) (now : ℤ) (m : Memory) (tenant : Option TenantFilter) :
    Except Failure Bool × Tables :=
  if (tenant.isNone && (truthy m.tenantId).isSome) || !tenant.all (memoryBelongsToTenant m) then
    (.ok false, s)
  else if (selected s.memories m.id tenant).isSome then (.ok false, s)
  else if !C.beforeImport m.id then (.error .hook, s)
  else match Tables.insertRow C s m with
    | (.error e, s) => (.error e, s)
    | (.ok _, s) =>
      (.ok true, s.record (auditRow C now .import m.id none (some m.provenance) tenant
        (some (memoryDimensions m))))

/-- The body of the transaction: the memories that are imported, and how many are skipped. -/
def Tables.importAll (s : Tables) (now : ℤ) (tenant : Option TenantFilter) :
    List Memory → Except Failure (List Memory × ℕ) × Tables
  | [] => (.ok ([], 0), s)
  | m :: memories =>
    match Tables.importMemory C s now m tenant with
    | (.error e, s) => (.error e, s)
    | (.ok added, s) =>
      match Tables.importAll s now tenant memories with
      | (.error e, s) => (.error e, s)
      | (.ok (imported, skipped), s) =>
        if added then (.ok (m :: imported, skipped), s) else (.ok (imported, skipped + 1), s)

/-- `importBatch`; a failure rolls everything back. The caller gets the number of memories imported. -/
def Tables.importBatch (s : Tables) (now : ℤ) (memories : List Memory)
    (tenant : Option TenantFilter) : Except Failure (List Memory × ℕ) × Tables :=
  match Tables.importAll C s now tenant memories with
  | (.error e, _) => (.error e, s)
  | (.ok answer, t) => (.ok answer, t)

end Statements

/-- An entry of the answer of `history`; its file is named by its place. -/
structure HistoryEntry where
  file : String
  content : String
  reason : Option String
  snapshotAt : String
  deriving DecidableEq

def Tables.history (s : Tables) (id : String) (tenant : Option TenantFilter) : List HistoryEntry :=
  (newestFirst VersionRow.createdAt
    (s.versions.filter fun v => v.memoryId = id && v.tenant.within (tenant.map recordTenant))).mapIdx
    fun i v => ⟨"snapshot-" ++ toString i ++ ".md", v.content, v.reason, v.createdAt⟩

/-- `getAudit`: the newest events within the tenant's slice. -/
def Tables.getAudit (s : Tables) (limit : ℕ) (since : Option String)
    (tenant : Option TenantFilter) : List AuditRow :=
  (newestFirst AuditRow.createdAt (s.audit.filter fun a =>
    a.tenant.within (tenant.map recordTenant) &&
      (truthy since).all fun t => t ≤ a.createdAt)).take limit

/-! ### Slices of the tables -/

@[simp] theorem truthy_tenantId (id : Store.TenantId) : truthy (some id.1) = some id.1 := by
  have hne : id.1 ≠ "" := by
    intro h
    have := id.2
    rw [h] at this
    exact absurd this (by decide)
  simp [truthy, hne]

/-- A tenant sees a memory's row exactly when the row's columns are in the tenant's slice. -/
theorem tenantWhere_eq (tenant : Option TenantFilter) (row : Row) :
    tenantWhere tenant row = (columns row).within (tenant.map recordTenant) := by
  have hdim : ∀ (value : Option Store.TenantId), truthy (value.map (·.1)) = value.map (·.1) := by
    rintro (_ | v)
    · rfl
    · exact truthy_tenantId v
  rcases tenant with _ | t
  · rfl
  · simp only [tenantWhere, Columns.within, dimensionWhere, Option.map_some, recordTenant, columns,
      hdim]
    rcases t.projectId with _ | p <;> rcases t.userId with _ | u <;> rcases t.agentId with _ | a <;>
      rfl

/-! ### What the calls do -/

section Effects
variable {C : Config} {s t : Tables} {now : ℤ} {id : String} {tenant : Option TenantFilter} {row : Row}

theorem selected_eq_some :
    selected s.memories id tenant = some row ↔
      s.memories.get id = some row ∧ tenantWhere tenant row = true := Option.filter_eq_some_iff

theorem Tables.existing_eq_ok {memory : Memory} {options : UpdateOptions}
    (h : s.existing memory options tenant = .ok row) :
    selected s.memories memory.id tenant = some row ∧ tenant.all (memoryBelongsToTenant memory) := by
  unfold existing at h
  split at h
  · cases h
  · rename_i hbelongs
    split at h
    · cases h
    · split at h
      · cases h
      · split at h
        · cases h
        · cases h
          exact ⟨by assumption, by simpa using hbelongs⟩

/-- The row of a new record, or nothing but perhaps the row before the index refuses it. -/
theorem Tables.insertRow_cases {m : Memory} {r : Except Failure Unit}
    (h : Tables.insertRow C s m = (r, t)) :
    (t.versions = s.versions ∧ t.sequence = s.sequence ∧ t.audit = s.audit) ∧
      (r = .error .constraint ∧ t = s ∨
        s.memories.insert (rowOf C.platform m) = some t.memories ∧
          (r = .error .constraint ∨ r = .ok ())) := by
  unfold insertRow at h
  simp only at h
  split at h
  · cases h
    exact ⟨⟨rfl, rfl, rfl⟩, .inl ⟨rfl, rfl⟩⟩
  · split at h
    · cases h
      exact ⟨⟨rfl, rfl, rfl⟩, .inl ⟨rfl, rfl⟩⟩
    · rename_i memories hinsert
      split at h
      · cases h
        exact ⟨⟨rfl, rfl, rfl⟩, .inr ⟨hinsert, .inl rfl⟩⟩
      · rename_i u hfts
        cases h
        unfold insertFts at hfts
        split at hfts
        · split at hfts
          · cases hfts
          · cases hfts
            exact ⟨⟨rfl, rfl, rfl⟩, .inr ⟨hinsert, .inr rfl⟩⟩
        · cases hfts
          exact ⟨⟨rfl, rfl, rfl⟩, .inr ⟨hinsert, .inr rfl⟩⟩

theorem Tables.store_cases {input : StoreInput} {embedding : Option (List JsNum)}
    {r : Except Failure Memory} (h : Tables.store C s now id input embedding tenant = (r, t)) :
    (t.versions = s.versions ∧ t.sequence = s.sequence) ∧
      let m := storeRecord C.platform now id input embedding tenant
      ((∃ e, r = .error e) ∧ t.audit = s.audit ∧
          (t.memories = s.memories ∨ s.memories.insert (rowOf C.platform m) = some t.memories) ∨
        r = .ok m ∧ s.memories.insert (rowOf C.platform m) = some t.memories ∧
          t.audit = s.audit ++ [auditRow C now .store id
            (some { type := some m.type, scope := some m.scope }) (some m.provenance) tenant
            (some (memoryDimensions m))]) := by
  unfold store at h
  split at h
  · cases h
    exact ⟨⟨rfl, rfl⟩, .inl ⟨⟨_, rfl⟩, rfl, .inl rfl⟩⟩
  · simp only at h
    split at h
    · rename_i e u hinsert
      cases h
      obtain ⟨⟨hv, hq, ha⟩, ⟨-, rfl⟩ | ⟨hm, -⟩⟩ := insertRow_cases hinsert
      · exact ⟨⟨rfl, rfl⟩, .inl ⟨⟨_, rfl⟩, rfl, .inl rfl⟩⟩
      · exact ⟨⟨hv, hq⟩, .inl ⟨⟨_, rfl⟩, ha, .inr hm⟩⟩
    · rename_i u hinsert
      cases h
      obtain ⟨⟨hv, hq, ha⟩, ⟨hr, -⟩ | ⟨hm, -⟩⟩ := insertRow_cases hinsert
      · cases hr
      · exact ⟨⟨hv, hq⟩, .inr ⟨rfl, hm, by rw [← ha]; rfl⟩⟩

/-- A record that `store` returns is the one in the row it has inserted. -/
theorem Tables.store_ok {input : StoreInput} {embedding : Option (List JsNum)} {m : Memory}
    (h : Tables.store C s now id input embedding tenant = (.ok m, t)) :
    m = storeRecord C.platform now id input embedding tenant ∧
      s.memories.insert (rowOf C.platform (storeRecord C.platform now id input embedding tenant)) =
        some t.memories ∧
      checks (rowOf C.platform (storeRecord C.platform now id input embedding tenant)) = true := by
  obtain ⟨-, ⟨⟨e, he⟩, -⟩ | ⟨hr, hrow, -⟩⟩ := store_cases h
  · cases he
  · refine ⟨Except.ok.inj hr, hrow, ?_⟩
    by_contra hchecks
    unfold store at h
    split at h
    · cases h
    · rw [Bool.not_eq_true] at hchecks
      simp [insertRow, hchecks] at h

/-- An update that passes the checks before it takes a version, and then writes the row it has
    selected unless the table refuses it. -/
theorem Tables.update_cases {memory : Memory} {options : UpdateOptions} {r : Except Failure Memory}
    (h : Tables.update C s now memory options tenant = (r, t)) :
    (∃ e, s.existing memory options tenant = .error e ∧ r = .error (.refused e) ∧ t = s) ∨
    ∃ row, s.existing memory options tenant = .ok row ∧
      let u := Tables.snapshot C s now row memory options tenant
      let updated := updatedOver C now row memory
      t.versions = u.versions ∧ t.sequence = u.sequence ∧
        (checks (setUpdated C.platform updated row) = false ∧ r = .error .constraint ∧ t = u ∨
          checks (setUpdated C.platform updated row) = true ∧ r = .ok updated ∧
            (∀ k, t.memories.get k =
              if k = memory.id then some (setUpdated C.platform updated row) else s.memories.get k) ∧
            t.audit = s.audit ++ [auditRow C now .update memory.id
              (some { reason := options.reason }) (some updated.provenance) tenant
              (some (memoryDimensions updated))]) := by
  unfold update at h
  split at h
  · rename_i e he
    cases h
    exact .inl ⟨e, he, rfl, rfl⟩
  · rename_i row hrow
    refine .inr ⟨row, hrow, ?_⟩
    have hu : (Tables.snapshot C s now row memory options tenant).memories = s.memories ∧
        (Tables.snapshot C s now row memory options tenant).audit = s.audit := by
      unfold snapshot snapshotHistory
      split
      · exact ⟨rfl, rfl⟩
      · split <;> exact ⟨rfl, rfl⟩
    have hsel := (existing_eq_ok hrow).1
    have hwhere : versionWhere memory.id tenant row.version row = true := by
      have hid := Table.key_of_get (selected_eq_some.mp hsel).1
      simp [versionWhere, idWhere, (selected_eq_some.mp hsel).2, hid]
    simp only at h
    split at h
    · rename_i hchecks
      cases h
      exact ⟨rfl, rfl, .inl ⟨by simpa using hchecks, rfl, rfl⟩⟩
    · rename_i hchecks
      obtain ⟨old, hold, -, hone, hget⟩ | ⟨hnone, -⟩ := Table.updateWhere_of_key
        (Tables.snapshot C s now row memory options tenant).memories
        (versionWhere memory.id tenant row.version)
        (setUpdated C.platform (updatedOver C now row memory)) (fun _ => rfl) memory.id
        (fun r hr => by
          rw [versionWhere, Bool.and_eq_true] at hr
          exact idWhere_id hr.1)
      · rw [hu.1, (selected_eq_some.mp hsel).1, Option.some.injEq] at hold
        subst hold
        rw [if_neg (by rw [hone]; decide)] at h
        rw [hu.1] at hget
        refine ⟨?_, ?_, .inr ⟨by simpa using hchecks, ?_⟩⟩
        · split at h <;> cases h <;> rfl
        · split at h <;> cases h <;> rfl
        · split at h <;> cases h
          · exact ⟨rfl, by rw [hu.1]; exact hget, by rw [← hu.2]; rfl⟩
          · exact ⟨rfl, by rw [hu.1]; exact hget, by rw [← hu.2]; rfl⟩
      · have := hnone row (by rw [hu.1]; exact (selected_eq_some.mp hsel).1)
        rw [hwhere] at this
        cases this

theorem Tables.deleteFts_rest (id : String) (u : Tables) : (deleteFts C u id).versions = u.versions ∧
    (deleteFts C u id).sequence = u.sequence ∧ (deleteFts C u id).memories = u.memories ∧
      (deleteFts C u id).audit = u.audit := by
  unfold deleteFts
  split <;> exact ⟨rfl, rfl, rfl, rfl⟩

/-- An archived row keeps its id and its columns; its audit row is written even where the row reads
    as no record. -/
theorem Tables.archive_cases {r : Except Failure (Option Memory)}
    (h : Tables.archive C s now id tenant = (r, t)) :
    (t.versions = s.versions ∧ t.sequence = s.sequence) ∧
      ((selected s.memories id tenant).all (fun row => row.archivedAt ≠ none) = true ∧
          r = .ok none ∧ t = s ∨ ∃ row, selected s.memories id tenant = some row ∧
        row.archivedAt = none ∧
        let updated := rowToMemory (setArchived (stamp C now) row)
        r = .ok updated ∧
        t.memories =
          (s.memories.updateWhere (idWhere id tenant) (setArchived (stamp C now)) fun _ => rfl).1 ∧
        t.audit = s.audit ++ [auditRow C now .archive id none (updated.map (·.provenance)) tenant
          (updated.map memoryDimensions)]) := by
  unfold archive at h
  split at h
  · rename_i hnone
    cases h
    refine ⟨⟨rfl, rfl⟩, .inl ⟨?_, rfl, rfl⟩⟩
    rcases hsel : selected s.memories id tenant with _ | row
    · rfl
    · simpa [hsel, Option.filter] using hnone
  · rename_i row hrow
    obtain ⟨hsel, harch⟩ := Option.filter_eq_some_iff.mp hrow
    have hfts := deleteFts_rest (C := C) id
    cases h
    refine ⟨⟨(hfts _).1, (hfts _).2.1⟩, .inr ⟨row, hsel, by simpa using harch, rfl, (hfts _).2.2.1, ?_⟩⟩
    simp only [record, (hfts _).2.2.2]

theorem Tables.revive_cases {r : Except Failure (Option Memory)}
    (h : Tables.revive C s now id tenant = (r, t)) :
    (t.versions = s.versions ∧ t.sequence = s.sequence) ∧
      ((selected s.memories id tenant).all (fun row => row.archivedAt = none) = true ∧
          r = .ok none ∧ t = s ∨ ∃ row, selected s.memories id tenant = some row ∧
        row.archivedAt ≠ none ∧
        t.memories =
          (s.memories.updateWhere (idWhere id tenant) (setRevived (stamp C now)) fun _ => rfl).1 ∧
        let updated := rowToMemory (setRevived (stamp C now) row)
        ((insertFts C s id).isSome = false ∧ r = .error .constraint ∧ t.audit = s.audit ∨
          (insertFts C s id).isSome = true ∧ r = .ok updated ∧
          t.audit = s.audit ++ [auditRow C now .revive id none (updated.map (·.provenance)) tenant
            (updated.map memoryDimensions)])) := by
  unfold revive at h
  split at h
  · rename_i hnone
    cases h
    refine ⟨⟨rfl, rfl⟩, .inl ⟨?_, rfl, rfl⟩⟩
    rcases hsel : selected s.memories id tenant with _ | row
    · rfl
    · simpa [hsel, Option.filter] using hnone
  · rename_i row hrow
    obtain ⟨hsel, harch⟩ := Option.filter_eq_some_iff.mp hrow
    have harch : row.archivedAt ≠ none := by simpa using harch
    simp only [insertFts] at h ⊢
    by_cases hfts : C.ftsEnabled = true
    · by_cases hid : id ∈ s.fts
      · simp only [hfts, hid, if_true] at h ⊢
        cases h
        exact ⟨⟨rfl, rfl⟩, .inr ⟨row, hsel, harch, rfl, .inl ⟨rfl, rfl, rfl⟩⟩⟩
      · simp only [hfts, hid, if_true, if_false] at h ⊢
        cases h
        exact ⟨⟨rfl, rfl⟩, .inr ⟨row, hsel, harch, rfl, .inr ⟨rfl, rfl, rfl⟩⟩⟩
    · simp only [hfts] at h ⊢
      cases h
      exact ⟨⟨rfl, rfl⟩, .inr ⟨row, hsel, harch, rfl, .inr ⟨rfl, rfl, rfl⟩⟩⟩

/-- What `forget` deletes beside the memory itself: what is within the slice of its caller. -/
def Tables.Forgets (C : Config) (s : Tables) (now : ℤ) (id : String) (tenant : Option TenantFilter)
    (row : Row) (r : Except Failure Bool) (t : Tables) : Prop :=
  t.sequence = s.sequence ∧
    t.audit = (s.audit ++ [auditRow C now .forget id none (some row.provenance) tenant
      (some (rowDimensions row))]).filter
        (fun a => !(a.memoryId = id && a.tenant.within (tenant.map recordTenant))) ∧
    ((∃ a ∈ t.audit, a.memoryId = id) ∧ r = .error .constraint ∧ t.memories = s.memories ∧
        t.versions = s.versions.filter
          (fun v => !(v.memoryId = id && v.tenant.within (tenant.map recordTenant))) ∨
      (∀ a ∈ t.audit, a.memoryId ≠ id) ∧ r = .ok true ∧
        t.memories = (s.memories.deleteWhere (idWhere id tenant)).1 ∧
        t.versions = s.versions.filter (fun v => v.memoryId ≠ id))

theorem Tables.forget_selected {r : Except Failure Bool} {row : Row}
    (hsel : selected s.memories id tenant = some row)
    (h : Tables.forget C s now id tenant = (r, t)) : Forgets C s now id tenant row r t := by
  unfold forget at h
  have hfts := deleteFts_rest (C := C) id
  simp only [hsel, (hfts _).1, (hfts _).2.2.1, (hfts _).2.2.2, record] at h
  split at h
  · rename_i hleft
    cases h
    obtain ⟨a, ha, haid⟩ := List.any_eq_true.mp hleft
    exact ⟨(hfts _).2.1, rfl, .inl ⟨⟨a, ha, of_decide_eq_true haid⟩, rfl, rfl, rfl⟩⟩
  · rename_i hleft
    cases h
    rw [List.any_eq_true, not_exists] at hleft
    refine ⟨(hfts _).2.1, rfl, .inr ⟨?_, ?_, rfl, ?_⟩⟩
    · exact fun a ha haid => hleft a ⟨ha, decide_eq_true haid⟩
    · have hsome := selected_eq_some.mp hsel
      have hchanges := Table.changes_of_key s.memories (idWhere id tenant) id
        fun r hr => idWhere_id hr
      rw [hsome.1, Option.any_some, if_pos] at hchanges
      · change Except.ok (decide (_ ≠ 0)) = _
        rw [show (s.memories.deleteWhere (idWhere id tenant)).2 = 1 from hchanges]
        rfl
      · rw [idWhere, hsome.2, Table.key_of_get hsome.1]
        simp
    · rw [List.filter_filter]
      refine List.filter_congr fun v _ => ?_
      by_cases hv : v.memoryId = id <;> simp [hv]

theorem Tables.forget_cases {r : Except Failure Bool}
    (h : Tables.forget C s now id tenant = (r, t)) :
    (r = .ok false ∧ t = s) ∨ ∃ row, selected s.memories id tenant = some row ∧
      Forgets C s now id tenant row r t := by
  cases hsel : selected s.memories id tenant with
  | none =>
    simp only [forget, hsel] at h
    cases h
    exact .inl ⟨rfl, rfl⟩
  | some row => exact .inr ⟨row, rfl, forget_selected hsel h⟩

/-- An import that adds its memory, or one that does not: then it writes nothing but perhaps the row
    that the index refuses. -/
theorem Tables.importMemory_cases {m : Memory} {r : Except Failure Bool}
    (h : Tables.importMemory C s now m tenant = (r, t)) :
    (r ≠ .ok true ∧ t.audit = s.audit ∧ (r = .ok false → t = s)) ∨
      (r = .ok true ∧ tenant.all (memoryBelongsToTenant m) = true ∧
        s.memories.insert (rowOf C.platform m) = some t.memories ∧
        t.audit = s.audit ++ [auditRow C now .import m.id none (some m.provenance) tenant
          (some (memoryDimensions m))]) := by
  unfold importMemory at h
  split at h
  · cases h
    exact .inl ⟨by simp, rfl, fun _ => rfl⟩
  · rename_i hbelongs
    split at h
    · cases h
      exact .inl ⟨by simp, rfl, fun _ => rfl⟩
    · split at h
      · cases h
        exact .inl ⟨by simp, rfl, nofun⟩
      · split at h
        · rename_i e u hinsert
          cases h
          exact .inl ⟨by simp, (insertRow_cases hinsert).1.2.2, nofun⟩
        · rename_i u hinsert
          cases h
          obtain ⟨⟨-, -, haudit⟩, ⟨hr, -⟩ | ⟨hmemories, -⟩⟩ := insertRow_cases hinsert
          · cases hr
          · refine .inr ⟨rfl, ?_, hmemories, by rw [← haudit]; rfl⟩
            rw [Bool.or_eq_true, not_or] at hbelongs
            simpa using hbelongs.2

/-- The memories that a batch imports have ids that are new and all different. -/
theorem Tables.importAll_ok {memories imported : List Memory} {skipped : ℕ}
    (h : Tables.importAll C s now tenant memories = (.ok (imported, skipped), t)) :
    t.audit = s.audit ++ imported.map (fun m => auditRow C now .import m.id none (some m.provenance)
        tenant (some (memoryDimensions m))) ∧
      (imported.map Memory.id).Nodup ∧ imported.Sublist memories ∧
      ∀ m ∈ imported, s.memories.get m.id = none ∧ tenant.all (memoryBelongsToTenant m) = true := by
  induction memories generalizing s t imported skipped with
  | nil =>
    cases h
    simp
  | cons m memories ih =>
    unfold importAll at h
    split at h
    · cases h
    · rename_i added u hone
      split at h
      · cases h
      · rename_i rest skipped' v hrest
        obtain ⟨haudit, hnodup, hsub, hnew⟩ := ih hrest
        rcases importMemory_cases hone with ⟨hr, hsame, hskip⟩ | ⟨hr, hbelongs, hinsert, hadded⟩
        · have hfalse : added = false := by
            cases added
            · rfl
            · exact absurd rfl hr
          subst hfalse
          cases h
          rw [hskip rfl] at haudit hnew
          exact ⟨haudit, hnodup, hsub.cons m, hnew⟩
        · cases hr
          cases h
          have hget := Table.get_insert hinsert
          have hfree : s.memories.get m.id = none := (Table.rows_insert hinsert).1
          have hother : ∀ m' ∈ rest, m'.id ≠ m.id ∧ s.memories.get m'.id = none := by
            intro m' hm'
            have hnone := (hnew m' hm').1
            rw [hget] at hnone
            split at hnone
            · cases hnone
            · exact ⟨by assumption, hnone⟩
          refine ⟨?_, ?_, hsub.cons_cons m, ?_⟩
          · rw [haudit, hadded, List.map_cons, List.append_assoc, List.singleton_append]
          · rw [List.map_cons, List.nodup_cons]
            refine ⟨fun hmem => ?_, hnodup⟩
            obtain ⟨m', hm', hid⟩ := List.mem_map.mp hmem
            exact (hother m' hm').1 hid
          · intro m' hm'
            rcases List.mem_cons.mp hm' with rfl | hm'
            · exact ⟨hfree, hbelongs⟩
            · exact ⟨(hother m' hm').2, (hnew m' hm').2⟩

end Effects

end Remembra.Sqlite.Serial
