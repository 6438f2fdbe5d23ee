import Remembra.Errors
import Remembra.Jobs.Record
import Remembra.Lib.Table

/-! The data of the batch idempotency ledger: the input of its calls and the check it passes, the rows of
    the claim table and what the capacity check counts of them. A row is only read back as this program
    wrote it, so its `mac` and the checks of `parseRow` are left out. -/

namespace Remembra.Idempotency

structure BatchIdempotencyInput where
  scope : String
  key : String
  fingerprint : String
  operation : Option String := none
  deriving DecidableEq

inductive BatchIdempotencyClaim (V : Type*) where
  | fresh
  | replay (response : V)
  deriving DecidableEq

inductive ClaimState where
  | inProgress | completed | released
  deriving DecidableEq

structure ClaimRow where
  scopeHash : String
  keyHash : String
  fingerprint : String
  state : ClaimState
  createdAt : ℤ
  completedAt : Option ℤ
  response : Option String
  responseBytes : ℕ
  reservedBytes : ℕ
  operation : String
  generation : ℕ
  deriving DecidableEq

/-- `PRIMARY KEY (scope_hash, key_hash)` -/
def ClaimRow.key (row : ClaimRow) : String × String := (row.scopeHash, row.keyHash)

abbrev ClaimTable := Table ClaimRow.key

/-- The claim table and the row of `batch_idempotency_meta`. -/
structure Db where
  claims : ClaimTable
  generation : ℕ
  restorePending : Bool

/-- A ledger as the constructor creates it. -/
def Db.new : Db := ⟨.empty, 1, false⟩

def maxBatchIdempotencyResponseBytes : ℕ := 2 * 1024 * 1024

/-- The options that pass the checks of the constructor. -/
structure Options where
  maxBytes : ℕ
  maxEntries : ℕ
  maxEntriesPerScope : ℕ
  maxTotalBytes : ℕ
  maxBytes_range : 1024 ≤ maxBytes ∧ maxBytes ≤ maxBatchIdempotencyResponseBytes
  maxEntries_range : 1 ≤ maxEntries ∧ maxEntries ≤ 100000
  maxEntriesPerScope_range : 1 ≤ maxEntriesPerScope ∧ maxEntriesPerScope ≤ maxEntries
  maxTotalBytes_range : maxBytes ≤ maxTotalBytes ∧ maxTotalBytes ≤ 1024 * 1024 * 1024

/-- What the ledger uses of the platform: the digest of a key, `JSON.stringify` (`none` when it throws or
    has no text for the value) and `JSON.parse`, which reads what `stringify` has written. -/
structure Platform (V : Type*) where
  digest : String → String
  stringify : V → Option String
  parse : String → Option V
  parse_stringify : ∀ v text, stringify v = some text → (parse text).isSome = true

/-- `Number.MAX_SAFE_INTEGER` -/
def maxSafeInteger : ℕ := 2 ^ 53 - 1

def invalid (message : String) : RemembraError :=
  ⟨.serviceUnavailable, "batch idempotency: " ++ message⟩

/-- `/^[a-f0-9]{64}$/` -/
def isDigest (s : String) : Bool :=
  s.toList.length = 64 && s.toList.all fun c => ('a' ≤ c && c ≤ 'f') || c.isDigit

/-- `/^[a-z][a-z0-9_]{0,15}$/` -/
def isOperation (s : String) : Bool :=
  match s.toList with
  | [] => false
  | c :: l => c.isLower && l.length ≤ 15 && l.all fun c => c.isLower || c.isDigit || c = '_'

def validateInput (input : BatchIdempotencyInput) : Except RemembraError Unit :=
  if ¬ isDigest input.scope then
    .error ⟨.invalidInput, "idempotency scope must be a 64-character digest"⟩
  else if Jobs.utf16Length input.key < 1 ∨ Jobs.utf16Length input.key > 128 then
    .error ⟨.invalidInput, "idempotency key is invalid"⟩
  else if ¬ isDigest input.fingerprint then
    .error ⟨.invalidInput, "idempotency fingerprint must be a 64-character digest"⟩
  else if input.operation.any fun operation => ¬ isOperation operation then
    .error ⟨.invalidInput, "idempotency operation is invalid"⟩
  else .ok ()

/-! ### What the capacity check counts -/

/-- `COUNT(*) … WHERE state <> 'released'` -/
def ClaimTable.entryCount (claims : ClaimTable) : ℕ :=
  (claims.rows.filter fun row => row.state ≠ .released).length

/-- `COUNT(*) … WHERE scope_hash = ? AND state <> 'released'` -/
def ClaimTable.scopeCount (claims : ClaimTable) (scopeHash : String) : ℕ :=
  (claims.rows.filter fun row => row.scopeHash = scopeHash ∧ row.state ≠ .released).length

/-- `CASE WHEN state = 'in_progress' THEN reserved_bytes ELSE response_bytes END` -/
def ClaimRow.bytes (row : ClaimRow) : ℕ :=
  if row.state = .inProgress then row.reservedBytes else row.responseBytes

/-- `SUM(…) … WHERE state <> 'released'` -/
def ClaimTable.totalBytes (claims : ClaimTable) : ℕ :=
  ((claims.rows.filter fun row => row.state ≠ .released).map ClaimRow.bytes).sum

end Remembra.Idempotency
