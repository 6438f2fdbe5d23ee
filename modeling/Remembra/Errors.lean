/-! The errors that callers react to: a stable code and a message. -/

namespace Remembra

inductive ErrorCode where
  /-- `INVALID_INPUT`: validation failed on a boundary. -/
  | invalidInput
  /-- `SNAPSHOT_INVALID`: an export or import failed validation. -/
  | snapshotInvalid
  /-- `SCOPE_ESCAPES_ROOT`: a scope resolves outside the storage root. -/
  | scopeEscapesRoot
  /-- `NOT_FOUND`: the memory id does not exist. -/
  | notFound
  /-- `CONFLICT`: an id collision, or a conflict over a resource's state. -/
  | conflict
  /-- `LOCK_TIMEOUT`: the storage lock was not acquired in time. -/
  | lockTimeout
  /-- `IO_ERROR`: the file system failed during an operation. -/
  | ioError
  /-- `SERVICE_UNAVAILABLE` -/
  | serviceUnavailable
  /-- `LLM_ERROR`: a language model's call failed. -/
  | llmError
  /-- `SENSITIVE_DATA`: the policy rejects what the text holds. -/
  | sensitiveData
  /-- `TENANT_REQUIRED`: a trusted tenant context is missing, or a permit is refused. -/
  | tenantRequired
  deriving DecidableEq

structure RemembraError where
  code : ErrorCode
  message : String
  deriving DecidableEq

end Remembra
