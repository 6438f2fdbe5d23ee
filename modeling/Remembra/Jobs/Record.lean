import Mathlib.Algebra.GroupWithZero.Nat
import Mathlib.Tactic.Common

/-! The job ledger's data: the record of a job, the inputs of the store's calls and the checks every
    input passes before it is stored. Clock readings, durations and attempt counts are integers. A
    field that is absent in TypeScript (`undefined`) or in SQL (`NULL`) is `none`. -/

namespace Remembra.Jobs

inductive JobState where
  | queued | running | completed | failed | retrying | cancelled
  deriving DecidableEq

/-- A job as it exists in the ledger. -/
structure JobRecord where
  jobId : String
  tenantId : Option String
  type : String
  payload : String
  state : JobState
  createdAt : ℤ
  startedAt : Option ℤ
  completedAt : Option ℤ
  attempt : ℤ
  maxAttempts : ℤ
  leaseOwner : Option String
  leaseExpiresAt : Option ℤ
  lastError : Option String
  runAfter : Option ℤ
  deriving DecidableEq

/-- The input of `enqueue`; the payload is of any type `π`. -/
structure EnqueueInput (π : Type*) where
  type : String
  payload : π
  tenantId : Option String := none
  maxAttempts : Option ℤ := none
  runAfterMs : Option ℤ := none
  jobId : Option String := none

structure ClaimOptions where
  owner : Option String := none
  leaseMs : Option ℤ := none
  types : Option (List String) := none
  tenantId : Option String := none

/-- How many jobs are in each state. -/
structure Stats where
  queued : ℕ
  running : ℕ
  retrying : ℕ
  failed : ℕ
  completed : ℕ
  cancelled : ℕ
  deriving DecidableEq

inductive JobError where
  /-- A `RemembraError` with code `INVALID_INPUT`. -/
  | invalidInput (message : String)
  /-- The error the database throws on an `INSERT` of a job id that is taken. -/
  | uniqueConstraint
  deriving DecidableEq

/-- What the ledger uses of the platform: `createHash("sha256").update(s).digest("hex").slice(0, 16)`,
    `JSON.stringify(payload ?? null)` (`none` when it throws), the order that `localeCompare` and the
    database put job ids in, and `defaultLockOwner()`. -/
structure Platform (π : Type*) where
  digest16 : String → String
  digest16_ne : ∀ s, digest16 s ≠ ""
  stringify : π → Option String
  compareIds : String → String → Ordering
  defaultLockOwner : String

/-- A process whose jobs carry no payload; their ids compare by code point. -/
def noPayload : Platform Unit where
  digest16 _ := "0000000000000000"
  digest16_ne _ := by decide
  stringify _ := some "null"
  compareIds a b := compareOfLessAndEq a.toList b.toList
  defaultLockOwner := "4711-0a1b2c3d"

def maxJobPayloadBytes : ℕ := 64 * 1024
def maxJobTypeLength : ℕ := 64
def defaultMaxAttempts : ℤ := 3
def defaultLeaseMs : ℤ := 60000
def maxErrorLabelLength : ℕ := 64

/-! ### Checks of the inputs -/

/-- `s.length` in JavaScript: UTF-16 code units. -/
def utf16Length (s : String) : ℕ := (s.toList.map fun c => if c.toNat < 0x10000 then 1 else 2).sum

/-- The characters `String.prototype.trim` strips. -/
def isTrimmed (c : Char) : Bool :=
  c.toNat ∈ [0x9, 0xA, 0xB, 0xC, 0xD, 0x20, 0xA0, 0x1680, 0x2028, 0x2029, 0x202F, 0x205F, 0x3000,
    0xFEFF] || (0x2000 ≤ c.toNat && c.toNat ≤ 0x200A)

def trim (s : String) : String :=
  .ofList ((s.toList.dropWhile isTrimmed).reverse.dropWhile isTrimmed).reverse

/-- `/^[a-zA-Z0-9][a-zA-Z0-9._:-]*$/` -/
def isJobTypeShape (s : String) : Bool :=
  match s.toList with
  | [] => false
  | c :: l => c.isAlphanum && l.all fun c => c.isAlphanum || c ∈ ['.', '_', ':', '-']

def normalizeJobType (type : String) : Except JobError String :=
  let trimmed := trim type
  if trimmed = "" ∨ utf16Length trimmed > maxJobTypeLength then
    .error (.invalidInput "job type must be 1-64 characters")
  else if isJobTypeShape trimmed then .ok trimmed
  else .error (.invalidInput "job type must be alphanumeric with . _ : - only")

/-- `/^[0-9a-f]{8,128}$/` -/
def isOpaque (s : String) : Bool :=
  8 ≤ s.length && s.length ≤ 128 && s.toList.all fun c => c.isDigit || ('a' ≤ c && c ≤ 'f')

/-- `/^[A-Za-z0-9_.-]+$/` -/
def isLabelShape (s : String) : Bool :=
  s ≠ "" && s.toList.all fun c => c.isAlphanum || c ∈ ['_', '.', '-']

/-- Error labels are classified and bounded; anything else is stored as `unknown`. Where the first
    64 code units are all of the label's shape they are its first 64 characters, and where one is
    not, neither is one of the first 64 characters. -/
def normalizeErrorLabel (label : String) : String :=
  let text := String.ofList (label.toList.take maxErrorLabelLength)
  if isLabelShape text then text else "unknown"

section Platform
variable {π : Type*} (P : Platform π)

/-- Tenant ids are opaque digests; a raw value is hashed rather than stored. -/
def normalizeTenantId : Option String → Except JobError (Option String)
  | none => .ok none
  | some tenantId =>
    if tenantId = "" then .ok none
    else if utf16Length tenantId > 256 then .error (.invalidInput "tenant id is invalid")
    else .ok (some (if isOpaque tenantId then tenantId else P.digest16 tenantId))

def encodeJobPayload (payload : π) : Except JobError String :=
  match P.stringify payload with
  | none => .error (.invalidInput "job payload is not JSON-serializable")
  | some encoded =>
    if encoded.utf8ByteSize > maxJobPayloadBytes then
      .error (.invalidInput ("job payload is " ++ toString encoded.utf8ByteSize ++
        " bytes, over the " ++ toString maxJobPayloadBytes ++ " limit"))
    else .ok encoded

/-- A normalized tenant id is never the empty string, so testing it for truth and testing it for
    presence come to the same. -/
theorem normalizeTenantId_ne_empty {t : Option String} {d : String}
    (h : normalizeTenantId P t = .ok (some d)) : d ≠ "" := by
  rcases t with _ | t <;> simp only [normalizeTenantId] at h
  · cases h
  · split at h
    · cases h
    · rename_i ht
      split at h
      · cases h
      · cases h
        split
        · exact ht
        · exact P.digest16_ne t

end Platform

/-! ### The store interface -/

/-- The `JobStore` interface over a state `σ`. `now` is the clock reading a call uses, its own
    argument or the store's clock; `newId` is what `randomUUID()` returns if it is called. -/
structure JobStore (π σ : Type*) where
  empty : σ
  enqueue (s : σ) (now : ℤ) (newId : String) (input : EnqueueInput π) : σ × Except JobError String
  claim (s : σ) (now : ℤ) (options : ClaimOptions) : σ × Option JobRecord
  complete (s : σ) (now : ℤ) (jobId owner : String) : σ × Bool
  fail (s : σ) (now : ℤ) (jobId owner errorLabel : String) (retryAfterMs : Option ℤ) : σ × Bool
  renew (s : σ) (now : ℤ) (jobId owner : String) (leaseMs : Option ℤ) : σ × Bool
  reclaimExpired (s : σ) (now : ℤ) : σ × ℕ
  get (s : σ) (jobId : String) : Option JobRecord
  prune (s : σ) (now olderThanMs : ℤ) : σ × ℕ
  stats (s : σ) : Stats

inductive JobOp (π : Type*) where
  | enqueue (now : ℤ) (newId : String) (input : EnqueueInput π)
  | claim (now : ℤ) (options : ClaimOptions)
  | complete (now : ℤ) (jobId owner : String)
  | fail (now : ℤ) (jobId owner errorLabel : String) (retryAfterMs : Option ℤ)
  | renew (now : ℤ) (jobId owner : String) (leaseMs : Option ℤ)
  | reclaimExpired (now : ℤ)
  | get (jobId : String)
  | prune (now olderThanMs : ℤ)
  | stats

inductive JobResult where
  | enqueued (r : Except JobError String)
  | claimed (job : Option JobRecord)
  | flag (ok : Bool)
  | count (n : ℕ)
  | job (job : Option JobRecord)
  | stats (counts : Stats)
  deriving DecidableEq

/-- One call of the store. -/
def JobStore.exec {π σ : Type*} (S : JobStore π σ) (s : σ) : JobOp π → σ × JobResult
  | .enqueue now newId input => let r := S.enqueue s now newId input; (r.1, .enqueued r.2)
  | .claim now options => let r := S.claim s now options; (r.1, .claimed r.2)
  | .complete now jobId owner => let r := S.complete s now jobId owner; (r.1, .flag r.2)
  | .fail now jobId owner errorLabel retryAfterMs =>
    let r := S.fail s now jobId owner errorLabel retryAfterMs; (r.1, .flag r.2)
  | .renew now jobId owner leaseMs => let r := S.renew s now jobId owner leaseMs; (r.1, .flag r.2)
  | .reclaimExpired now => let r := S.reclaimExpired s now; (r.1, .count r.2)
  | .get jobId => (s, .job (S.get s jobId))
  | .prune now olderThanMs => let r := S.prune s now olderThanMs; (r.1, .count r.2)
  | .stats => (s, .stats (S.stats s))

end Remembra.Jobs
