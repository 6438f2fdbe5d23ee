import Remembra.Service.Transmission
import Remembra.Sqlite.Legacy

/-! The request context of V6: who asks, for which operation and until when. The host mints it; a
    request cannot. -/

namespace Remembra.V6
open Store (SensitivityBand JsNum isValidTenantId)

/-! ### Numbers -/

/-- `a <= b`, false where one of the two is not a number. -/
def numLe : JsNum → JsNum → Bool
  | .nan, _ => false
  | _, .nan => false
  | .negInfinity, _ => true
  | _, .infinity => true
  | .finite a, .finite b => a ≤ b
  | _, _ => false

/-- `Number.isFinite` -/
def isFinite : JsNum → Bool
  | .finite _ => true
  | _ => false

/-- `a - b` for an integer `b`. -/
def numSub (a : JsNum) (b : ℤ) : JsNum :=
  match a with
  | .finite q => .finite (q - b)
  | a => a

/-- `a > b` for an integer `b`. -/
def exceeds (a : JsNum) (b : ℤ) : Bool :=
  match a with
  | .finite q => b < q
  | .infinity => true
  | _ => false

/-! ### The context -/

/-- `V6_OPERATION_CLASSES` -/
inductive OperationClass where
  | read | contextRead | write | update | delete | relationWrite | historyRead | export
  | snapshotExport | providerTransmit | policyAdmin
  deriving DecidableEq

/-- `V6_AUTH_METHODS` -/
inductive AuthMethod where
  | localOperator | apiKey | mtls | oauthOidc | applicationResolver
  deriving DecidableEq

def OperationClass.text : OperationClass → String
  | .read => "read"
  | .contextRead => "context_read"
  | .write => "write"
  | .update => "update"
  | .delete => "delete"
  | .relationWrite => "relation_write"
  | .historyRead => "history_read"
  | .export => "export"
  | .snapshotExport => "snapshot_export"
  | .providerTransmit => "provider_transmit"
  | .policyAdmin => "policy_admin"

/-- `OPERATION_CAPABILITY` -/
def OperationClass.capability : OperationClass → String
  | .read => "tenant:read"
  | .contextRead => "tenant:read"
  | .historyRead => "tenant:read"
  | .write => "tenant:write"
  | .update => "tenant:write"
  | .delete => "tenant:write"
  | .relationWrite => "tenant:write"
  | .export => "tenant:export"
  | .snapshotExport => "tenant:export"
  | .providerTransmit => "provider:transmit"
  | .policyAdmin => "policy:admin"

/-- `MUTATING` -/
def OperationClass.isMutating : OperationClass → Bool
  | .write | .update | .delete | .relationWrite | .export | .snapshotExport | .policyAdmin => true
  | _ => false

structure RequestPrincipal where
  organizationId : String
  projectId : Option String := none
  userId : Option String := none
  agentId : Option String := none
  membershipVersion : String
  scopes : Option (List String) := none
  capabilities : Option (List String) := none
  clearance : Option SensitivityBand := none

/-- What `RequestPrincipalSchema` asks beyond the types. -/
def acceptsPrincipal (p : RequestPrincipal) : Bool :=
  let dimensions := p.userId.isSome || p.projectId.isSome || p.agentId.isSome
  isValidTenantId p.organizationId && p.projectId.all isValidTenantId &&
    p.userId.all isValidTenantId && p.agentId.all isValidTenantId &&
    p.membershipVersion ≠ "" && p.membershipVersion.length ≤ 128 &&
    p.scopes.all (fun l => l.length ≤ 256 && l.all fun s => s ≠ "" && s.length ≤ 512) &&
    p.capabilities.all (fun l => l.length ≤ 32 && l.all fun c => c ≠ "" && c.length ≤ 64) &&
    (!dimensions || p.scopes.any (· ≠ [])) &&
    (dimensions || p.capabilities.any fun l => "tenant:read" ∈ l || "policy:admin" ∈ l) &&
    p.capabilities.all (fun l => "tenant:admin" ∉ l || "tenant:read" ∈ l)

/-- A context that `createRequestContext` has minted. -/
structure RequestContext where
  principal : RequestPrincipal
  operation : OperationClass
  authMethod : AuthMethod
  authExpiresAt : ℤ
  resolvedAt : ℤ := 0
  now : ℤ := 0
  replayKey : Option String := none
  deadlineAt : Option ℤ := none
  accepted : acceptsPrincipal principal = true
  replayable : operation.isMutating = true → replayKey.isSome = true
  pending : ∀ d ∈ deadlineAt, now < d
  authenticated : now < authExpiresAt
  capable : principal.capabilities ≠ some []

/-- `V6_MEMBERSHIP_MAX_AGE_MS` -/
def membershipMaxAge : ℤ := 5 * 60000

def contextError (detail : String) : RemembraError :=
  ⟨.tenantRequired, "v6 request context: " ++ detail⟩

/-- How a number is written in a text. -/
def numText (number : ℚ → String) : JsNum → String
  | .finite q => number q
  | .nan => "NaN"
  | .infinity => "Infinity"
  | .negInfinity => "-Infinity"

/-- `assertFreshContext`, without a membership version of the directory; `number` writes a number. -/
def assertFreshContext (number : ℚ → String) (c : RequestContext) (now : JsNum) :
    Except RemembraError Unit :=
  if numLe (.finite c.authExpiresAt) now then
    .error (contextError ("authentication expired at " ++ number c.authExpiresAt ++ " (now " ++
      numText number now ++ ")"))
  else if exceeds (numSub now c.resolvedAt) membershipMaxAge then
    .error (contextError ("membership resolved at " ++ number c.resolvedAt ++ " is stale at " ++
      numText number now))
  else match c.deadlineAt.filter fun d => numLe (.finite d) now with
    | some d => .error (contextError ("request deadline " ++ number d ++ " passed at " ++
        numText number now))
    | none =>
      if !(c.principal.capabilities.any fun l => c.operation.capability ∈ l) then
        .error (contextError ("operation \"" ++ c.operation.text ++ "\" requires capability \"" ++
          c.operation.capability ++ "\""))
      else .ok ()

/-- The clearance that an identity holds; an absent one covers `public` only. -/
def clearanceOf (p : RequestPrincipal) : SensitivityBand := p.clearance.getD .isPublic

/-- The identity of a context is a valid tenant identifier. -/
theorem valid_organizationId (c : RequestContext) :
    isValidTenantId c.principal.organizationId = true := by
  have h := c.accepted
  simp only [acceptsPrincipal, Bool.and_eq_true] at h
  exact h.1.1.1.1.1.1.1.1.1.1

/-- A reader of an organization who is in no project. -/
def organizationReader : RequestContext where
  principal := {
    organizationId := "org-a", membershipVersion := "m-1", capabilities := some ["tenant:read"] }
  operation := .read
  authMethod := .apiKey
  authExpiresAt := 10000
  accepted := by decide +kernel
  replayable := by rintro ⟨⟩
  pending := by rintro _ ⟨⟩
  authenticated := by omega
  capable := by decide

end Remembra.V6
