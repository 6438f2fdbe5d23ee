import Remembra.Jobs.Record
import Remembra.Lib.Table

/-! The in-memory job store: a map from job id to record, every record stored under its own id.
    Updating a record is `jobs.set(jobId, { ...job, … })`. -/

namespace Remembra.Jobs.Memory

abbrev JobMap := Table JobRecord.jobId

def isTerminal : JobState → Bool
  | .completed | .failed | .cancelled => true
  | _ => false

def claimable (job : JobRecord) (now : ℤ) (options : ClaimOptions) : Bool :=
  (job.state = .queued || job.state = .retrying) &&
  job.runAfter.all (· ≤ now) &&
  options.types.all (job.type ∈ ·) &&
  options.tenantId.all (job.tenantId = some ·)

/-- Replace the record of a job that is present. -/
def put (jobs : JobMap) (jobId : String) (f : JobRecord → JobRecord) (hf : ∀ r, (f r).jobId = r.jobId) :
    JobMap := (jobs.updateWhere (·.jobId = jobId) f hf).1

section Store
variable {π : Type*} (P : Platform π)

/-- Oldest first, then by id. -/
def older (a b : JobRecord) : Bool :=
  a.createdAt < b.createdAt ||
    (a.createdAt = b.createdAt && P.compareIds a.jobId b.jobId = .lt)

def enqueue (jobs : JobMap) (now : ℤ) (newId : String) (input : EnqueueInput π) :
    JobMap × Except JobError String :=
  let runAfter := (input.runAfterMs.filter (0 < ·)).map (now + ·)
  match normalizeTenantId P input.tenantId with
  | .error e => (jobs, .error e)
  | .ok tenantId =>
    match normalizeJobType input.type with
    | .error e => (jobs, .error e)
    | .ok type =>
      match encodeJobPayload P input.payload with
      | .error e => (jobs, .error e)
      | .ok payload =>
        let job : JobRecord :=
          { jobId := input.jobId.getD newId, tenantId := tenantId.filter (· ≠ ""), type := type,
            payload := payload, state := .queued, createdAt := now, startedAt := none,
            completedAt := none, attempt := 0,
            maxAttempts := input.maxAttempts.getD defaultMaxAttempts, leaseOwner := none,
            leaseExpiresAt := none, lastError := none, runAfter := runAfter }
        (jobs.upsert job, .ok job.jobId)

def claimed (now : ℤ) (options : ClaimOptions) (job : JobRecord) : JobRecord :=
  { job with
    state := .running, attempt := job.attempt + 1,
    startedAt := some (job.startedAt.getD now),
    leaseOwner := some (options.owner.getD P.defaultLockOwner),
    leaseExpiresAt := some (now + options.leaseMs.getD defaultLeaseMs) }

def claim (jobs : JobMap) (now : ℤ) (options : ClaimOptions) : JobMap × Option JobRecord :=
  match firstMin (older P) (jobs.rows.filter (claimable · now options)) with
  | none => (jobs, none)
  | some candidate =>
    let job := claimed P now options candidate
    (jobs.upsert job, some job)

end Store

def completed (now : ℤ) (job : JobRecord) : JobRecord :=
  { job with
    state := .completed, completedAt := some now, leaseOwner := none, leaseExpiresAt := none }

theorem completed_jobId (now : ℤ) (job : JobRecord) : (completed now job).jobId = job.jobId := rfl

def complete (jobs : JobMap) (now : ℤ) (jobId owner : String) : JobMap × Bool :=
  match jobs.get jobId with
  | none => (jobs, false)
  | some job =>
    if job.leaseOwner ≠ some owner then (jobs, false)
    else (put jobs jobId (completed now) (completed_jobId now), true)

/-- A failed job: `runAfter` is set for a delayed retry and otherwise left as it was. -/
def failed (now : ℤ) (errorLabel : String) (retryAfterMs : ℤ) (job : JobRecord) : JobRecord :=
  let canRetry := job.attempt < job.maxAttempts
  { job with
    state := if canRetry then .retrying else .failed
    completedAt := if canRetry then none else some now
    lastError := some (normalizeErrorLabel errorLabel)
    leaseOwner := none
    leaseExpiresAt := none
    runAfter := if canRetry ∧ retryAfterMs > 0 then some (now + retryAfterMs) else job.runAfter }

theorem failed_jobId (now : ℤ) (errorLabel : String) (retryAfterMs : ℤ) (job : JobRecord) :
    (failed now errorLabel retryAfterMs job).jobId = job.jobId := rfl

def fail (jobs : JobMap) (now : ℤ) (jobId owner errorLabel : String) (retryAfterMs : Option ℤ) :
    JobMap × Bool :=
  match jobs.get jobId with
  | none => (jobs, false)
  | some job =>
    if job.leaseOwner ≠ some owner then (jobs, false)
    else (put jobs jobId (failed now errorLabel (retryAfterMs.getD 0)) (failed_jobId now errorLabel _),
      true)

def renewed (now : ℤ) (leaseMs : ℤ) (job : JobRecord) : JobRecord :=
  { job with leaseExpiresAt := some (now + leaseMs) }

theorem renewed_jobId (now leaseMs : ℤ) (job : JobRecord) :
    (renewed now leaseMs job).jobId = job.jobId := rfl

def renew (jobs : JobMap) (now : ℤ) (jobId owner : String) (leaseMs : Option ℤ) : JobMap × Bool :=
  match jobs.get jobId with
  | none => (jobs, false)
  | some job =>
    if job.leaseOwner ≠ some owner then (jobs, false)
    else (put jobs jobId (renewed now (leaseMs.getD defaultLeaseMs)) (renewed_jobId now _), true)

/-- A worker died holding this: return it rather than stranding it. -/
def reclaimed (now : ℤ) (job : JobRecord) : JobRecord :=
  { job with
    state := if job.attempt < job.maxAttempts then .retrying else .failed
    leaseOwner := none
    leaseExpiresAt := none
    completedAt := if job.attempt < job.maxAttempts then none else some now }

theorem reclaimed_jobId (now : ℤ) (job : JobRecord) : (reclaimed now job).jobId = job.jobId := rfl

def isExpired (now : ℤ) (job : JobRecord) : Bool :=
  job.state = .running && job.leaseExpiresAt.any (· ≤ now)

def reclaimExpired (jobs : JobMap) (now : ℤ) : JobMap × ℕ :=
  jobs.updateWhere (isExpired now) (reclaimed now) (reclaimed_jobId now)

def isPrunable (now olderThanMs : ℤ) (job : JobRecord) : Bool :=
  isTerminal job.state && decide (olderThanMs ≤ now - job.completedAt.getD job.createdAt)

def prune (jobs : JobMap) (now olderThanMs : ℤ) : JobMap × ℕ :=
  jobs.deleteWhere (isPrunable now olderThanMs)

/-- `counts[job.state]++` -/
def tally (counts : Stats) (job : JobRecord) : Stats :=
  match job.state with
  | .queued => { counts with queued := counts.queued + 1 }
  | .running => { counts with running := counts.running + 1 }
  | .retrying => { counts with retrying := counts.retrying + 1 }
  | .failed => { counts with failed := counts.failed + 1 }
  | .completed => { counts with completed := counts.completed + 1 }
  | .cancelled => { counts with cancelled := counts.cancelled + 1 }

def stats (jobs : JobMap) : Stats := jobs.rows.foldl tally ⟨0, 0, 0, 0, 0, 0⟩

end Remembra.Jobs.Memory

namespace Remembra.Jobs

/-- `InMemoryJobStore`. -/
def inMemory {π : Type*} (P : Platform π) : JobStore π Memory.JobMap where
  empty := .empty
  enqueue := Memory.enqueue P
  claim := Memory.claim P
  complete := Memory.complete
  fail := Memory.fail
  renew := Memory.renew
  reclaimExpired := Memory.reclaimExpired
  get := Table.get
  prune := Memory.prune
  stats := Memory.stats

end Remembra.Jobs
