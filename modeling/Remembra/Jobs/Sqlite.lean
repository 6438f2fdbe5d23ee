import Remembra.Jobs.Record
import Remembra.Lib.Table

/-! The SQLite job store: one table with primary key `job_id`, one statement a call. Each statement
    is atomic, as the database documents, and is written here as the condition of its `WHERE` and
    the assignments of its `SET`; comparisons with `NULL` are not true. -/

namespace Remembra.Jobs.Sqlite

/-- A row of the table `jobs`. -/
structure JobRow where
  jobId : String
  tenantId : Option String
  type : String
  payload : String
  state : JobState
  createdAt : ℤ
  startedAt : Option ℤ
  completedAt : Option ℤ
  attempt : ℤ
  maxAttempts : ℤ
  leaseOwner : Option String
  leaseExpiresAt : Option ℤ
  lastError : Option String
  runAfter : Option ℤ

abbrev JobTable := Table JobRow.jobId

/-- A record leaves out the columns that are `NULL`. -/
def toRecord (row : JobRow) : JobRecord where
  jobId := row.jobId
  tenantId := row.tenantId
  type := row.type
  payload := row.payload
  state := row.state
  createdAt := row.createdAt
  startedAt := row.startedAt
  completedAt := row.completedAt
  attempt := row.attempt
  maxAttempts := row.maxAttempts
  leaseOwner := row.leaseOwner
  leaseExpiresAt := row.leaseExpiresAt
  lastError := row.lastError
  runAfter := row.runAfter

/-- `state IN ('queued','retrying') AND (run_after IS NULL OR run_after <= now)`, and the filters on
    `type` and `tenant_id` when the options carry them. -/
def claimableWhere (now : ℤ) (options : ClaimOptions) (row : JobRow) : Bool :=
  (row.state = .queued || row.state = .retrying) &&
  (row.runAfter = none || row.runAfter.any (· ≤ now)) &&
  (match options.types with
    | none | some [] => true
    | some types => row.type ∈ types) &&
  (match options.tenantId with
    | none => true
    | some tenantId => row.tenantId = some tenantId)

section Store
variable {π : Type*} (P : Platform π)

/-- `ORDER BY created_at ASC, job_id ASC`. -/
def orderBy (a b : JobRow) : Bool :=
  a.createdAt < b.createdAt ||
    (a.createdAt = b.createdAt && P.compareIds a.jobId b.jobId = .lt)

def enqueue (jobs : JobTable) (now : ℤ) (newId : String) (input : EnqueueInput π) :
    JobTable × Except JobError String :=
  match normalizeTenantId P input.tenantId with
  | .error e => (jobs, .error e)
  | .ok tenantId =>
    let runAfter := (input.runAfterMs.filter (0 < ·)).map (now + ·)
    let jobId := input.jobId.getD newId
    match normalizeJobType input.type with
    | .error e => (jobs, .error e)
    | .ok type =>
      match encodeJobPayload P input.payload with
      | .error e => (jobs, .error e)
      | .ok payload =>
        match jobs.insert
          { jobId := jobId, tenantId := tenantId, type := type, payload := payload,
            state := .queued, createdAt := now, startedAt := none, completedAt := none,
            attempt := 0, maxAttempts := input.maxAttempts.getD defaultMaxAttempts,
            leaseOwner := none, leaseExpiresAt := none, lastError := none,
            runAfter := runAfter } with
        | none => (jobs, .error .uniqueConstraint)
        | some jobs => (jobs, .ok jobId)

/-- The `SET` of the claim. -/
def setClaimed (now : ℤ) (options : ClaimOptions) (row : JobRow) : JobRow :=
  { row with
    state := .running
    attempt := row.attempt + 1
    startedAt := row.startedAt.orElse fun _ => some now
    leaseOwner := some (options.owner.getD P.defaultLockOwner)
    leaseExpiresAt := some (now + options.leaseMs.getD defaultLeaseMs) }

theorem setClaimed_jobId (now : ℤ) (options : ClaimOptions) (row : JobRow) :
    (setClaimed P now options row).jobId = row.jobId := rfl

/-- `UPDATE … WHERE job_id = (SELECT … LIMIT 1) RETURNING *`. -/
def claim (jobs : JobTable) (now : ℤ) (options : ClaimOptions) : JobTable × Option JobRecord :=
  match firstMin (orderBy P) (jobs.rows.filter (claimableWhere now options)) with
  | none => (jobs, none)
  | some chosen =>
    let updated := (jobs.updateWhere (·.jobId = chosen.jobId) (setClaimed P now options)
      (setClaimed_jobId P now options)).1
    (updated, (updated.get chosen.jobId).map toRecord)

end Store

/-- `job_id = ? AND lease_owner = ?` -/
def heldWhere (jobId owner : String) (row : JobRow) : Bool :=
  row.jobId = jobId && row.leaseOwner = some owner

def setCompleted (now : ℤ) (row : JobRow) : JobRow :=
  { row with
    state := .completed, completedAt := some now, leaseOwner := none, leaseExpiresAt := none }

theorem setCompleted_jobId (now : ℤ) (row : JobRow) : (setCompleted now row).jobId = row.jobId := rfl

def complete (jobs : JobTable) (now : ℤ) (jobId owner : String) : JobTable × Bool :=
  let result := jobs.updateWhere (heldWhere jobId owner) (setCompleted now) (setCompleted_jobId now)
  (result.1, result.2 = 1)

def setFailed (now : ℤ) (errorLabel : String) (retryAfterMs : ℤ) (row : JobRow) : JobRow :=
  { row with
    state := if row.attempt < row.maxAttempts then .retrying else .failed
    completedAt := if row.attempt < row.maxAttempts then none else some now
    lastError := some (normalizeErrorLabel errorLabel)
    leaseOwner := none
    leaseExpiresAt := none
    runAfter := if row.attempt < row.maxAttempts then
      (if retryAfterMs > 0 then some (now + retryAfterMs) else none) else none }

theorem setFailed_jobId (now : ℤ) (errorLabel : String) (retryAfterMs : ℤ) (row : JobRow) :
    (setFailed now errorLabel retryAfterMs row).jobId = row.jobId := rfl

def fail (jobs : JobTable) (now : ℤ) (jobId owner errorLabel : String)
    (retryAfterMs : Option ℤ) : JobTable × Bool :=
  let result := jobs.updateWhere (heldWhere jobId owner)
    (setFailed now errorLabel (retryAfterMs.getD 0)) (setFailed_jobId now errorLabel _)
  (result.1, result.2 = 1)

def setRenewed (now leaseMs : ℤ) (row : JobRow) : JobRow :=
  { row with leaseExpiresAt := some (now + leaseMs) }

theorem setRenewed_jobId (now leaseMs : ℤ) (row : JobRow) :
    (setRenewed now leaseMs row).jobId = row.jobId := rfl

/-- `job_id = ? AND lease_owner = ? AND lease_expires_at > ?` -/
def renewableWhere (now : ℤ) (jobId owner : String) (row : JobRow) : Bool :=
  heldWhere jobId owner row && row.leaseExpiresAt.any (now < ·)

/-- Unlike the other calls on a claim this one also asks that the lease has not run out. -/
def renew (jobs : JobTable) (now : ℤ) (jobId owner : String) (leaseMs : Option ℤ) :
    JobTable × Bool :=
  let result := jobs.updateWhere (renewableWhere now jobId owner)
    (setRenewed now (leaseMs.getD defaultLeaseMs)) (setRenewed_jobId now _)
  (result.1, result.2 = 1)

def setReclaimed (now : ℤ) (row : JobRow) : JobRow :=
  { row with
    state := if row.attempt < row.maxAttempts then .retrying else .failed
    completedAt := if row.attempt < row.maxAttempts then none else some now
    leaseOwner := none
    leaseExpiresAt := none }

theorem setReclaimed_jobId (now : ℤ) (row : JobRow) : (setReclaimed now row).jobId = row.jobId := rfl

/-- `state = 'running' AND (lease_expires_at IS NULL OR lease_expires_at <= ?)` -/
def expiredWhere (now : ℤ) (row : JobRow) : Bool :=
  row.state = .running && (row.leaseExpiresAt = none || row.leaseExpiresAt.any (· ≤ now))

def reclaimExpired (jobs : JobTable) (now : ℤ) : JobTable × ℕ :=
  jobs.updateWhere (expiredWhere now) (setReclaimed now) (setReclaimed_jobId now)

def get (jobs : JobTable) (jobId : String) : Option JobRecord := (jobs.get jobId).map toRecord

/-- `state IN ('completed','failed','cancelled') AND COALESCE(completed_at, created_at) <= ?` -/
def prunableWhere (now olderThanMs : ℤ) (row : JobRow) : Bool :=
  (row.state = .completed || row.state = .failed || row.state = .cancelled) &&
  decide (row.completedAt.getD row.createdAt ≤ now - olderThanMs)

def prune (jobs : JobTable) (now olderThanMs : ℤ) : JobTable × ℕ :=
  jobs.deleteWhere (prunableWhere now olderThanMs)

/-- `SELECT state, COUNT(*) … GROUP BY state`: a state without rows keeps its count of zero. -/
def stats (jobs : JobTable) : Stats :=
  let count := fun state => (jobs.rows.filter fun row => row.state = state).length
  { queued := count .queued, running := count .running, retrying := count .retrying,
    failed := count .failed, completed := count .completed, cancelled := count .cancelled }

end Remembra.Jobs.Sqlite

namespace Remembra.Jobs

/-- `SqliteJobStore`. -/
def sqlite {π : Type*} (P : Platform π) : JobStore π Sqlite.JobTable where
  empty := .empty
  enqueue := Sqlite.enqueue P
  claim := Sqlite.claim P
  complete := Sqlite.complete
  fail := Sqlite.fail
  renew := Sqlite.renew
  reclaimExpired := Sqlite.reclaimExpired
  get := Sqlite.get
  prune := Sqlite.prune
  stats := Sqlite.stats

end Remembra.Jobs
