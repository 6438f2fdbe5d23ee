import Remembra.Idempotency.Scope
import Remembra.Idempotency.Ledger

/-! A keyed batch, from the HTTP request to its response: the scope is computed, the key is claimed, and the
    batch is executed and its response stored, or the stored response is returned. What the surroundings
    answer (the host's authorization, the execution of the items, the ledger) are questions of the program. -/

namespace Remembra.Idempotency
open Jobs (utf16Length)
open Service (TenantContext)
open Store (Yaml)
open TenantMigration (isJson)

/-! ### Requests -/

inductive BatchOperation where
  | store | update | delete | «export» | search
  deriving DecidableEq

def BatchOperation.text : BatchOperation → String
  | .store => "store"
  | .update => "update"
  | .delete => "delete"
  | .export => "export"
  | .search => "search"

/-- `MUTATING_BATCH_OPERATIONS` -/
def BatchOperation.mutating : BatchOperation → Bool
  | .store | .update | .delete => true
  | .export | .search => false

/-- A parsed request: its operation, and what else it holds. -/
structure BatchRequest where
  operation : BatchOperation
  fields : List (String × Yaml)
  json : isJson (.map (("operation", .str operation.text) :: fields)) = true

def BatchRequest.value (request : BatchRequest) : Yaml :=
  .map (("operation", .str request.operation.text) :: request.fields)

/-- The length of a list that the request holds. -/
def BatchRequest.lengthOf (request : BatchRequest) (key : String) : ℕ :=
  match request.fields.lookup key with
  | some (.seq items) => items.length
  | _ => 0

def batchRequestCount (request : BatchRequest) : ℕ :=
  match request.operation with
  | .store | .update | .search => request.lengthOf "items"
  | .delete | .export => request.lengthOf "ids"

/-- A batch with an idempotency key, and who sends it. -/
structure KeyedBatch where
  apiKey : Option String
  credentialScope : Option String
  tenant : Option TenantContext
  agentId : Option String
  idempotencyKey : String
  requestBytes : ℕ
  request : BatchRequest

/-- Who sends the batch. -/
def KeyedBatch.principal (batch : KeyedBatch) : Except RemembraError Principal :=
  (credentialOf batch.apiKey batch.credentialScope).map fun credential =>
    principalOf credential batch.tenant batch.agentId

/-! ### Results -/

inductive TransactionPolicy where
  | perItem | readOnly
  deriving DecidableEq

inductive IdempotencyMark where
  | unsupported | readOnly | stored | replayed
  deriving DecidableEq

/-- The result of an item of a mutation. -/
inductive ItemResult where
  | stored (id message : String)
  | updated (version : ℤ) (text : String)
  | deleted (text : String)
  deriving DecidableEq

/-- The outcome of an item: its result, or the code and the message of its failure. -/
structure BatchOutcome where
  index : ℕ
  id : Option String
  result : Except (String × String) ItemResult
  deriving DecidableEq

def BatchOutcome.ok (outcome : BatchOutcome) : Bool := outcome.result.isOk

structure BatchResult where
  operation : BatchOperation
  requested : ℕ
  succeeded : ℕ
  failed : ℕ
  results : List BatchOutcome
  transactionPolicy : TransactionPolicy
  idempotency : IdempotencyMark
  deriving DecidableEq

/-- `isBatchOutcome`, of an item of a mutation. -/
def isBatchOutcome (outcome : BatchOutcome) (index : ℕ) (operation : BatchOperation) : Bool :=
  outcome.index = index && (outcome.id.all fun id => 1 ≤ utf16Length id && utf16Length id ≤ 255) &&
  match operation, outcome.result with
  | _, .error (code, message) => 0 < utf16Length code && utf16Length code ≤ 64 && utf16Length message ≤ 2048
  | .store, .ok (.stored _ message) => utf16Length message ≤ 2048
  | .update, .ok (.updated _ text) => utf16Length text ≤ 2048
  | .delete, .ok (.deleted text) => utf16Length text ≤ 2048
  | _, _ => false

/-- `isBatchResult`, of a mutation. -/
def isBatchResult (result : BatchResult) (expectedOperation : BatchOperation) (expectedCount : ℕ) : Bool :=
  result.operation = expectedOperation && result.idempotency ≠ .replayed &&
  1 ≤ result.requested && result.requested ≤ 100 &&
  result.succeeded + result.failed = result.requested && result.requested = expectedCount &&
  result.results.length = result.requested &&
  (result.results.zipIdx.all fun (outcome, index) => isBatchOutcome outcome index result.operation) &&
  (result.results.filter BatchOutcome.ok).length = result.succeeded &&
  result.results.all BatchOutcome.ok &&
  result.transactionPolicy = .perItem && result.idempotency = .stored

def batchHasUnresolvedFailure (result : BatchResult) : Bool :=
  result.operation.mutating && result.results.any fun outcome => !outcome.ok

/-- `RELEASABLE_BATCH_FAILURES` -/
def releasableBatchFailures : List String := ["NOT_FOUND", "CONFLICT", "INVALID_INPUT"]

def batchClaimCanBeReleased (result : BatchResult) : Bool :=
  result.operation.mutating && !result.results.isEmpty && result.results.all fun outcome =>
    match outcome.result with
    | .error (code, _) => releasableBatchFailures.contains code
    | .ok _ => false

/-! ### The program -/

/-- What a batch asks of its surroundings. -/
inductive Ask where
  /-- `refreshDurableRecoveryState` -/
  | refresh
  /-- `preflightBatchAuthorization` -/
  | authorize (replay : Bool)
  | claim (input : BatchIdempotencyInput)
  | execute
  | complete (input : BatchIdempotencyInput) (response : BatchResult)
  | abandon (input : BatchIdempotencyInput)

def Ask.Answer : Ask → Type
  | .refresh | .authorize _ | .complete _ _ | .abandon _ => Except RemembraError Unit
  | .claim _ => Except RemembraError (BatchIdempotencyClaim BatchResult)
  | .execute => Except RemembraError BatchResult

abbrev Act := Prog Ask Ask.Answer RemembraError

namespace Act

def refresh : Act Unit := Prog.ask .refresh Prog.ofExcept
def authorize (replay : Bool) : Act Unit := Prog.ask (.authorize replay) Prog.ofExcept
def claim (input : BatchIdempotencyInput) : Act (BatchIdempotencyClaim BatchResult) :=
  Prog.ask (.claim input) Prog.ofExcept
def execute : Act BatchResult := Prog.ask .execute Prog.ofExcept
def complete (input : BatchIdempotencyInput) (response : BatchResult) : Act Unit :=
  Prog.ask (.complete input response) Prog.ofExcept
/-- A release that fails is only logged. -/
def release (input : BatchIdempotencyInput) : Act Unit := Prog.ask (.abandon input) fun _ => Prog.done ()

end Act

/-- `isValidIdempotencyKey` -/
def isValidIdempotencyKey (value : String) : Bool :=
  match value.toList with
  | [] => false
  | c :: l => c.isAlphanum && l.length ≤ 127 &&
      l.all fun c => c.isAlphanum || c ∈ ['.', '_', '~', ':', '+', '/', '=', '-']

def maxBatchIdempotencyRequestBytes : ℕ := 256 * 1024

/-- The checks of `batch` before anything is asked of the ledger. -/
def checkKeyed (batch : KeyedBatch) (scope : String) : Except RemembraError Unit :=
  if ¬ isValidIdempotencyKey batch.idempotencyKey then
    .error ⟨.invalidInput, "Idempotency-Key must be 1-128 safe ASCII characters"⟩
  else if ¬ batch.request.operation.mutating then
    .error ⟨.invalidInput, "Idempotency-Key is only supported for batch mutations"⟩
  else if ¬ isDigest scope then
    .error ⟨.invalidInput, "a trusted 64-character idempotency scope is required"⟩
  else if batch.requestBytes > maxBatchIdempotencyRequestBytes then
    .error ⟨.invalidInput, "idempotent batch requests are limited to 262144 bytes"⟩
  else .ok ()

section Program
variable (C : Crypto) (P : Platform BatchResult)

/-- The claim of a batch. -/
def KeyedBatch.input (batch : KeyedBatch) (scope : String) : BatchIdempotencyInput where
  scope := effectiveIdempotencyScope C scope batch.tenant batch.agentId
  key := batch.idempotencyKey
  fingerprint := batchIdempotencyFingerprint C (.map [
    ("scope", .str (effectiveIdempotencyScope C scope batch.tenant batch.agentId)),
    ("request", batch.request.value)])
  operation := some batch.request.operation.text

/-- The response as it is stored. -/
def stored (result : BatchResult) : BatchResult := { result with idempotency := .stored }

/-- The response as it is returned again. -/
def replayed (result : BatchResult) : BatchResult := { result with idempotency := .replayed }

/-- From the result of the execution on. -/
def settle (batch : KeyedBatch) (input : BatchIdempotencyInput) (result : BatchResult) : Act BatchResult := do
  if batchHasUnresolvedFailure result then
    if batchClaimCanBeReleased result then Act.release input
    Prog.fail ⟨.serviceUnavailable, "batch contains a failed item and is not replayable"⟩
  else if ¬ isBatchResult (stored result) batch.request.operation (batchRequestCount batch.request) then
    Prog.fail ⟨.serviceUnavailable, "batch response failed integrity validation"⟩
  else if (P.stringify (stored result)).all (·.utf8ByteSize > maxBatchIdempotencyResponseBytes) then
    Prog.fail ⟨.serviceUnavailable, "batch response is too large to persist safely"⟩
  else
    Act.complete input (stored result)
    pure (stored result)

/-- From the answer to the claim on. -/
def claimed (batch : KeyedBatch) (input : BatchIdempotencyInput) :
    BatchIdempotencyClaim BatchResult → Act BatchResult
  | .replay response => do
    Act.authorize true
    if ¬ isBatchResult response batch.request.operation (batchRequestCount batch.request) then
      Prog.fail ⟨.serviceUnavailable, "stored idempotent response is invalid"⟩
    else pure (replayed response)
  | .fresh => do
    settle P batch input (← Act.execute)

/-- The handler of `POST /memories/batch`, and `batch`. -/
def serve (batch : KeyedBatch) : Act BatchResult := do
  let scope ← Prog.ofExcept
    (idempotencyScopeFor C batch.apiKey batch.credentialScope batch.tenant batch.agentId)
  if batch.request.operation.mutating then Act.refresh
  Prog.ofExcept (checkKeyed batch scope)
  Act.authorize false
  let input := batch.input C scope
  claimed P batch input (← Act.claim input)

end Program

end Remembra.Idempotency
