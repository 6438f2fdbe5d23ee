import Remembra.Errors
import Remembra.Store.Record

/-! Who may do what: the tenant's authorization and the agent's read policy. Both are pure; whether a
    membership is still valid is asked of the host before them. -/

namespace Remembra.Service
open Store (Memory TenantFilter TenantId)

/-! ### Tenants -/

inductive TenantCapability where
  | read | write | export | admin
  deriving DecidableEq

structure TenantPrincipal where
  organizationId : TenantId
  projectId : Option TenantId := none
  userId : Option TenantId := none
  agentId : Option TenantId := none
  capabilities : List TenantCapability := []

/-- A context minted by the host. -/
structure TenantContext where
  principal : TenantPrincipal

inductive AuthorizationOperation where
  | memoryRead | memoryWrite | memoryUpdate | memoryDelete | memorySearch | memoryHistory
  | snapshotCreate | snapshotRestore | tenantManage | projectManage
  deriving DecidableEq

def requiredCapability : AuthorizationOperation → TenantCapability
  | .memoryRead => .read
  | .memoryWrite => .write
  | .memoryUpdate => .write
  | .memoryDelete => .write
  | .memorySearch => .read
  | .memoryHistory => .read
  | .snapshotCreate => .export
  | .snapshotRestore => .write
  | .tenantManage => .admin
  | .projectManage => .admin

inductive AuthorizationDenialReason where
  | missingContext | missingCapability | dimensionMismatch
  deriving DecidableEq

/-- The dimensions of what is asked for. -/
structure AuthorizationResource where
  tenantId : Option String := none
  projectId : Option String := none
  userId : Option String := none
  agentId : Option String := none

def memoryResource (m : Memory) : AuthorizationResource :=
  ⟨m.tenantId, m.projectId, m.userId, m.agentId⟩

/-- The resource that a filter names. -/
def filterResource (t : TenantFilter) : AuthorizationResource :=
  ⟨some t.organizationId.1, t.projectId.map (·.1), t.userId.map (·.1), t.agentId.map (·.1)⟩

def resourceBelongsToTenant (r : AuthorizationResource) (filter : TenantFilter) : Bool :=
  r.tenantId = some filter.organizationId.1 &&
    (filter.organizationWide = some true ||
      (Store.matchesDimension filter.projectId r.projectId &&
        Store.matchesDimension filter.userId r.userId &&
        Store.matchesDimension filter.agentId r.agentId))

def tenantFilterFromContext (context : TenantContext) : TenantFilter where
  organizationId := context.principal.organizationId
  projectId := context.principal.projectId
  userId := context.principal.userId
  agentId := context.principal.agentId
  organizationWide := some (context.principal.projectId.isNone &&
    context.principal.userId.isNone && context.principal.agentId.isNone)

def evaluateAuthorization (context : Option TenantContext) (operation : AuthorizationOperation)
    (resource : Option AuthorizationResource) : Except AuthorizationDenialReason Unit :=
  match context with
  | none => .error .missingContext
  | some context =>
    let capabilities := context.principal.capabilities
    let required := requiredCapability operation
    if required ∉ capabilities &&
        !(required ≠ .admin && required ≠ .export && .admin ∈ capabilities) then
      .error .missingCapability
    else if resource.any fun r => !resourceBelongsToTenant r (tenantFilterFromContext context) then
      .error .dimensionMismatch
    else .ok ()

def assertAuthorized (context : Option TenantContext) (operation : AuthorizationOperation)
    (resource : Option AuthorizationResource) : Except RemembraError Unit :=
  match evaluateAuthorization context operation resource with
  | .ok _ => .ok ()
  | .error .dimensionMismatch =>
    .error ⟨.notFound, "resource not found in the authorized scope"⟩
  | .error _ => .error ⟨.tenantRequired, "trusted tenant authorization is required"⟩

/-! ### Agents -/

structure AgentContext where
  agentId : String
  agentType : Option String := none
  agentVersion : Option String := none
  councilId : Option String := none
  taskId : Option String := none
  conversationId : Option String := none
  runId : Option String := none
  scopes : List String := []

def contextScopes (context : AgentContext) : List String :=
  context.scopes ++ ["agent:" ++ context.agentId] ++
    ((Store.truthy context.councilId).map ("council:" ++ ·)).toList ++
    ((Store.truthy context.taskId).map ("task:" ++ ·)).toList

def canUseScope (scope : String) (context : Option AgentContext) : Bool :=
  scope = "global" || context.any fun c => scope ∈ contextScopes c

def canReadMemory (memory : Memory) (context : Option AgentContext) (agentMode : Bool) : Bool :=
  if !agentMode then true
  else if memory.scope ≠ "global" && !canUseScope memory.scope context then false
  else match memory.access.getD .global, context with
    | .global, _ => true
    | _, none => false
    | .shared, some _ => true
    | .isPrivate, some c => memory.provenance.agentId = some c.agentId

/-! ### Callers -/

/-- `AgentReadOptions` -/
structure Options where
  agent : Option AgentContext := none
  tenant : Option TenantContext := none

inductive Capability where
  | read | write | admin
  deriving DecidableEq

def defaultOperation : Capability → AuthorizationOperation
  | .admin => .tenantManage
  | .write => .memoryWrite
  | .read => .memorySearch

/-- The part of `tenantFilter` that the recovery state has no part in. -/
def tenantFilter (strict : Bool) (options : Options) (capability : Capability)
    (operation : Option AuthorizationOperation) : Except RemembraError (Option TenantFilter) :=
  if strict && options.tenant.isNone then
    .error ⟨.tenantRequired, "a trusted tenant context is required"⟩
  else match options.tenant with
    | none => .ok none
    | some context =>
      (assertAuthorized (some context) (operation.getD (defaultOperation capability)) none).map
        fun _ => some (tenantFilterFromContext context)

/-- `canRead`; it asks for the right to search before it looks at the memory. -/
def canRead (strict agentMode : Bool) (memory : Memory) (options : Options) :
    Except RemembraError Bool :=
  (tenantFilter strict options .read none).map fun tenant =>
    if tenant.isSome && (evaluateAuthorization options.tenant .memoryRead
        (some (memoryResource memory))).isOk = false then false
    else canReadMemory memory options.agent agentMode

/-! ### Laws -/

/-- A legacy caller without a tenant has no filter. -/
@[simp] theorem tenantFilter_legacy (options : Options) (h : options.tenant = none)
    (capability : Capability) (operation : Option AuthorizationOperation) :
    tenantFilter false options capability operation = .ok none := by
  simp [tenantFilter, h]

/-- Without tenants and agents every memory can be read. -/
@[simp] theorem canRead_legacy (m : Memory) (options : Options) (h : options.tenant = none) :
    canRead false false m options = .ok true := by
  simp [canRead, h, Except.map, canReadMemory]

end Remembra.Service
