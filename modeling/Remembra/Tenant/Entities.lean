import Remembra.Tenant.Revocation

/-! Administration of a tenant's users, projects and agents. A call authorizes its caller, looks at a
    snapshot, mutates the directory, reads the result back and leaves an audit event. Each of these is
    one operation of the directory, and the operations of other calls come in between. -/

namespace Remembra.Tenant
open Store (TenantId isValidTenantId)
open InMemoryTenantDirectory

/-! ### Inputs -/

/-- A property that may be given: its value, which may be `undefined`. -/
abbrev Given := Option (Option String)

structure UserInput where
  userId : String
  displayName : Given := none
  deriving DecidableEq

structure ProjectInput where
  projectId : String
  displayName : Given := none
  deriving DecidableEq

structure AgentInput where
  agentId : String
  userId : Given := none
  projectId : Given := none
  displayName : Given := none
  deriving DecidableEq

inductive EntityOperation where
  | createUser (input : UserInput)
  | updateUser (input : UserInput)
  | deleteUser (userId : String)
  | createProject (input : ProjectInput)
  | updateProject (input : ProjectInput)
  | deleteProject (projectId : String)
  | createAgent (input : AgentInput)
  | updateAgent (input : AgentInput)
  | deleteAgent (agentId : String)
  deriving DecidableEq

def UserInput.accepts (input : UserInput) : Bool :=
  isValidTenantId input.userId && input.displayName.all isDisplayName

def ProjectInput.accepts (input : ProjectInput) : Bool :=
  isValidTenantId input.projectId && input.displayName.all isDisplayName

def AgentInput.accepts (input : AgentInput) : Bool :=
  isValidTenantId input.agentId && input.userId.join.all isValidTenantId &&
    input.projectId.join.all isValidTenantId && input.displayName.all isDisplayName

/-- What the schemas take. -/
def EntityOperation.accepts : EntityOperation → Bool
  | .createUser input | .updateUser input => input.accepts
  | .createProject input | .updateProject input => input.accepts
  | .createAgent input | .updateAgent input => input.accepts
  | .deleteUser id | .deleteProject id | .deleteAgent id => isValidTenantId id

/-! ### The check and the mutation -/

inductive TenantEntity where
  | user (user : TenantDirectoryUser)
  | project (project : TenantDirectoryProject)
  | agent (agent : TenantDirectoryAgent)
  deriving DecidableEq

section Operations
variable (snapshot : TenantDirectorySnapshot) (organizationId : String)

def findUser (userId : String) : Option TenantDirectoryUser :=
  snapshot.users.find? fun candidate =>
    candidate.organizationId = organizationId && candidate.userId = userId

def findProject (projectId : String) : Option TenantDirectoryProject :=
  snapshot.projects.find? fun candidate =>
    candidate.organizationId = organizationId && candidate.projectId = projectId

def findAgent (agentId : String) : Option TenantDirectoryAgent :=
  snapshot.agents.find? fun candidate =>
    candidate.organizationId = organizationId && candidate.agentId = agentId

/-- A creation wants none there. -/
def createEntity {α : Type} (current : Option α) (kind : String) (mutation : Mutation) :
    Except RemembraError Mutation :=
  match current with
  | some _ => .error ⟨.conflict, kind ++ " already exists"⟩
  | none => .ok mutation

/-- An update and a deletion want one there. -/
def changeEntity {α : Type} (current : Option α) (kind : String) (mutation : α → Mutation) :
    Except RemembraError Mutation :=
  match current with
  | some row => .ok (mutation row)
  | none => .error ⟨.notFound, kind ++ " not found"⟩

def createUser (input : UserInput) : Except RemembraError Mutation :=
  createEntity (findUser snapshot organizationId input.userId) "user"
    (.upsertUser ⟨organizationId, input.userId, input.displayName.join⟩)

/-- What the input gives takes the place of what is there. -/
def updateUser (input : UserInput) : Except RemembraError Mutation :=
  changeEntity (findUser snapshot organizationId input.userId) "user" fun current =>
    .upsertUser { current with
      userId := input.userId
      displayName := input.displayName.getD current.displayName }

def deleteUser (userId : String) : Except RemembraError Mutation :=
  changeEntity (findUser snapshot organizationId userId) "user" fun _ =>
    .removeUser organizationId userId

def createProject (input : ProjectInput) : Except RemembraError Mutation :=
  createEntity (findProject snapshot organizationId input.projectId) "project"
    (.upsertProject ⟨organizationId, input.projectId, input.displayName.join⟩)

def updateProject (input : ProjectInput) : Except RemembraError Mutation :=
  changeEntity (findProject snapshot organizationId input.projectId) "project" fun current =>
    .upsertProject { current with
      projectId := input.projectId
      displayName := input.displayName.getD current.displayName }

def deleteProject (projectId : String) : Except RemembraError Mutation :=
  changeEntity (findProject snapshot organizationId projectId) "project" fun _ =>
    .removeProject organizationId projectId

def createAgent (input : AgentInput) : Except RemembraError Mutation :=
  createEntity (findAgent snapshot organizationId input.agentId) "agent"
    (.upsertAgent ⟨organizationId, input.agentId, input.userId.join, input.projectId.join,
      input.displayName.join⟩)

def updateAgent (input : AgentInput) : Except RemembraError Mutation :=
  changeEntity (findAgent snapshot organizationId input.agentId) "agent" fun current =>
    .upsertAgent { current with
      agentId := input.agentId
      userId := input.userId.getD current.userId
      projectId := input.projectId.getD current.projectId
      displayName := input.displayName.getD current.displayName }

def deleteAgent (agentId : String) : Except RemembraError Mutation :=
  changeEntity (findAgent snapshot organizationId agentId) "agent" fun _ =>
    .removeAgent organizationId agentId

/-- What an operation makes of a snapshot: the mutation that it will ask for, or its error. -/
def EntityOperation.check : EntityOperation → Except RemembraError Mutation
  | .createUser input => Tenant.createUser snapshot organizationId input
  | .updateUser input => Tenant.updateUser snapshot organizationId input
  | .deleteUser id => Tenant.deleteUser snapshot organizationId id
  | .createProject input => Tenant.createProject snapshot organizationId input
  | .updateProject input => Tenant.updateProject snapshot organizationId input
  | .deleteProject id => Tenant.deleteProject snapshot organizationId id
  | .createAgent input => Tenant.createAgent snapshot organizationId input
  | .updateAgent input => Tenant.updateAgent snapshot organizationId input
  | .deleteAgent id => Tenant.deleteAgent snapshot organizationId id

/-- The entity that an operation is about. -/
def EntityOperation.entity : EntityOperation → Option TenantEntity
  | .createUser { userId := id, .. } | .updateUser { userId := id, .. } | .deleteUser id =>
    (findUser snapshot organizationId id).map .user
  | .createProject { projectId := id, .. } | .updateProject { projectId := id, .. } | .deleteProject id =>
    (findProject snapshot organizationId id).map .project
  | .createAgent { agentId := id, .. } | .updateAgent { agentId := id, .. } | .deleteAgent id =>
    (findAgent snapshot organizationId id).map .agent

end Operations

/-- A creation and an update answer with the entity, which they read back. -/
def EntityOperation.readsBack : EntityOperation → Bool
  | .deleteUser _ | .deleteProject _ | .deleteAgent _ => false
  | _ => true

/-! ### Calls -/

/-- The caller is a current administrator of the whole organization. -/
def authorizeAdmin (d : InMemoryTenantDirectory) (context : TenantContext) : Except RemembraError Unit :=
  let principal := context.principal
  if d.verifyContext context = false then
    .error ⟨.tenantRequired, "tenant membership is not current"⟩
  else
    match Service.assertAuthorized (some ⟨principal.toTenantPrincipal⟩) .tenantManage none with
    | .error e => .error e
    | .ok () =>
      if principal.projectId.isSome || principal.userId.isSome || principal.agentId.isSome then
        .error ⟨.tenantRequired, "organization administrator context required"⟩
      else .ok ()

/-- A call that has been authorized, its input parsed. -/
structure EntityCall where
  organizationId : TenantId
  operation : EntityOperation
  parsed : operation.accepts = true
  deriving DecidableEq

/-- The operation of the directory that a call does next. -/
inductive EntityPhase where
  | checking
  | mutating (m : Mutation)
  | reading
  | auditing (entity : Option TenantEntity)
  | settled (result : Except RemembraError (Option TenantEntity))

/-- The next operation of a call: how the call goes on, and the directory. -/
def EntityCall.next (call : EntityCall) (d : InMemoryTenantDirectory) :
    EntityPhase → Option (EntityPhase × InMemoryTenantDirectory)
  | .checking =>
    match call.operation.check d.snapshot call.organizationId.1 with
    | .error e => some (.settled (.error e), d)
    | .ok m => some (.mutating m, d)
  | .mutating m =>
    match d.apply m with
    | (.error e, d') => some (.settled (.error e), d')
    | (.ok (), d') => some (if call.operation.readsBack then .reading else .auditing none, d')
  | .reading =>
    match call.operation.entity d.snapshot call.organizationId.1 with
    | none => some (.settled (.error ⟨.notFound, "tenant entity not found after mutation"⟩), d)
    | some entity => some (.auditing (some entity), d)
  | .auditing entity =>
    match d.getMembershipVersion call.organizationId.1 with
    | none => some (.settled (.error ⟨.notFound, "organization not found"⟩), d)
    | some _ => some (.settled (.ok entity), d)
  | .settled _ => none

structure EntityRun where
  call : EntityCall
  phase : EntityPhase := .checking
  /-- The calls that were settled before this one began. -/
  earlier : List ℕ

/-- The directory, and the calls in the order they began in. -/
structure EntityService where
  directory : InMemoryTenantDirectory
  calls : List EntityRun := []

def EntityPhase.isSettled : EntityPhase → Bool
  | .settled _ => true
  | _ => false

def EntityService.settledCalls (s : EntityService) : List ℕ :=
  (List.range s.calls.length).filter fun i => (s.calls[i]?).any fun r => r.phase.isSettled

inductive EntityEvent where
  | begin (context : TenantContext) (operation : EntityOperation) (parsed : operation.accepts = true)
  /-- The call in place `i` does its next operation. -/
  | advance (i : ℕ)

def entityStep (s : EntityService) : EntityEvent → Option EntityService
  | .begin context operation parsed =>
    match authorizeAdmin s.directory context with
    | .error _ => none
    | .ok () => some { s with
        calls := s.calls ++ [⟨⟨context.principal.organizationId, operation, parsed⟩, .checking, s.settledCalls⟩] }
  | .advance i =>
    match s.calls[i]? with
    | none => none
    | some r => (r.call.next s.directory r.phase).map fun (phase, directory) =>
        { directory, calls := s.calls.set i { r with phase } }

/-- A call alone: the check and the mutation with nothing in between. -/
def EntityCall.alone (call : EntityCall) (d : InMemoryTenantDirectory) : Outcome :=
  match call.operation.check d.snapshot call.organizationId.1 with
  | .error e => (.error e, d)
  | .ok m => d.apply m

end Remembra.Tenant
