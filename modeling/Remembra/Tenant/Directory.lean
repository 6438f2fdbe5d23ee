import Remembra.Lib.Delimited
import Remembra.Lib.Table
import Remembra.Service.Access

/-! The tenant directory: organizations with a membership version, their users, projects and agents, who
    is a member of which project and which agent works in which. A mutator checks its arguments and what
    they refer to, changes the maps and bumps the organization's version. `fromSnapshot` reads a
    directory back, `verifyContext` decides on a context of the host. -/

namespace Remembra.Tenant
open Store (TenantId isValidTenantId truthy)
open Service (TenantCapability)
open Jobs (utf16Length)

/-! ### Entities -/

inductive TenantMembershipRole where
  | member | manager | admin
  deriving DecidableEq

structure OrganizationRecord where
  organizationId : String
  membershipVersion : ℕ
  deriving DecidableEq

structure TenantDirectoryUser where
  organizationId : String
  userId : String
  displayName : Option String := none
  deriving DecidableEq

structure TenantDirectoryProject where
  organizationId : String
  projectId : String
  displayName : Option String := none
  deriving DecidableEq

structure TenantDirectoryAgent where
  organizationId : String
  agentId : String
  userId : Option String := none
  projectId : Option String := none
  displayName : Option String := none
  deriving DecidableEq

structure ProjectMemberRecord where
  organizationId : String
  projectId : String
  userId : String
  role : TenantMembershipRole
  deriving DecidableEq

structure ProjectAgentRecord where
  organizationId : String
  projectId : String
  agentId : String
  deriving DecidableEq

structure TenantDirectorySnapshot where
  organizations : List OrganizationRecord := []
  users : List TenantDirectoryUser := []
  projects : List TenantDirectoryProject := []
  agents : List TenantDirectoryAgent := []
  projectMembers : List ProjectMemberRecord := []
  projectAgents : List ProjectAgentRecord := []
  deriving DecidableEq

def key (organizationId id : String) : String := Delimited.join '\u0000' organizationId id

def membershipKey (organizationId projectId userId : String) : String :=
  key (key organizationId projectId) userId

def TenantDirectoryUser.key (u : TenantDirectoryUser) : String := Tenant.key u.organizationId u.userId
def TenantDirectoryProject.key (p : TenantDirectoryProject) : String :=
  Tenant.key p.organizationId p.projectId
def TenantDirectoryAgent.key (a : TenantDirectoryAgent) : String := Tenant.key a.organizationId a.agentId
def ProjectMemberRecord.key (m : ProjectMemberRecord) : String :=
  membershipKey m.organizationId m.projectId m.userId
def ProjectAgentRecord.key (a : ProjectAgentRecord) : String := Tenant.key a.organizationId a.agentId

/-- Every map is keyed by what its values carry. -/
structure InMemoryTenantDirectory where
  organizations : Table OrganizationRecord.organizationId := .empty
  users : Table TenantDirectoryUser.key := .empty
  projects : Table TenantDirectoryProject.key := .empty
  agents : Table TenantDirectoryAgent.key := .empty
  projectMembers : Table ProjectMemberRecord.key := .empty
  projectAgents : Table ProjectAgentRecord.key := .empty

/-! ### Checks -/

def assertEntityId (value label : String) : Except RemembraError Unit :=
  if isValidTenantId value then .ok () else .error ⟨.invalidInput, s!"invalid {label}"⟩

/-- A display name is absent or 1 to 256 code units long. -/
def isDisplayName (value : Option String) : Bool :=
  value.all fun name => 1 ≤ utf16Length name && utf16Length name ≤ 256

def assertDisplayName (value : Option String) : Except RemembraError Unit :=
  if isDisplayName value then .ok () else .error ⟨.invalidInput, "invalid display name"⟩

namespace InMemoryTenantDirectory
variable (d : InMemoryTenantDirectory)

def requireOrganization (organizationId : String) : Except RemembraError OrganizationRecord := do
  assertEntityId organizationId "organization id"
  match d.organizations.get organizationId with
  | none => .error ⟨.notFound, s!"organization {organizationId} not found"⟩
  | some organization => .ok organization

/-- The map knows the entity, or this is the error. -/
def assertKnown (known : Bool) (code : ErrorCode) (message : String) : Except RemembraError Unit :=
  if known then .ok () else .error ⟨code, message⟩

/-- A reference that is given (not absent, not empty) passes the check. -/
def assertReference (reference : Option String) (check : String → Except RemembraError Unit) :
    Except RemembraError Unit :=
  match truthy reference with
  | none => .ok ()
  | some id => check id

/-! ### What the mutators change -/

def withOrganization (organizationId : String) : InMemoryTenantDirectory :=
  { d with organizations := d.organizations.upsert ⟨organizationId, 1⟩ }

def withUser (user : TenantDirectoryUser) : InMemoryTenantDirectory :=
  { d with users := d.users.upsert user }

/-- The members of the user go, and so do the user's agents with their associations. -/
def withoutUser (organizationId userId : String) : InMemoryTenantDirectory :=
  let gone := fun agent : TenantDirectoryAgent =>
    agent.organizationId = organizationId && agent.userId = some userId
  { d with
    users := d.users.erase (key organizationId userId)
    projectMembers := (d.projectMembers.deleteWhere fun member =>
      member.organizationId = organizationId && member.userId = userId).1
    agents := (d.agents.deleteWhere gone).1
    projectAgents := (d.projectAgents.deleteWhere fun projectAgent =>
      d.agents.rows.any fun agent => gone agent && agent.key = projectAgent.key).1 }

def withProject (project : TenantDirectoryProject) : InMemoryTenantDirectory :=
  { d with projects := d.projects.upsert project }

/-- An agent of the project stays, assigned to none. -/
def unassign (organizationId projectId : String) (agent : TenantDirectoryAgent) :
    TenantDirectoryAgent :=
  if agent.organizationId = organizationId ∧ agent.projectId = some projectId then
    { agent with projectId := none }
  else agent

theorem key_unassign (organizationId projectId : String) (agent : TenantDirectoryAgent) :
    (unassign organizationId projectId agent).key = agent.key := by
  rw [unassign]
  split <;> rfl

def withoutProject (organizationId projectId : String) : InMemoryTenantDirectory :=
  { d with
    projects := d.projects.erase (key organizationId projectId)
    projectMembers := (d.projectMembers.deleteWhere fun member =>
      member.organizationId = organizationId && member.projectId = projectId).1
    projectAgents := (d.projectAgents.deleteWhere fun agent =>
      agent.organizationId = organizationId && agent.projectId = projectId).1
    agents := d.agents.mapRows (unassign organizationId projectId)
      (key_unassign organizationId projectId) }

def withAgent (agent : TenantDirectoryAgent) : InMemoryTenantDirectory :=
  { d with
    agents := d.agents.upsert agent
    projectAgents := match truthy agent.projectId with
      | some projectId => d.projectAgents.upsert ⟨agent.organizationId, projectId, agent.agentId⟩
      | none => d.projectAgents.erase agent.key }

def withoutAgent (organizationId agentId : String) : InMemoryTenantDirectory :=
  { d with
    agents := d.agents.erase (key organizationId agentId)
    projectAgents := d.projectAgents.erase (key organizationId agentId) }

def withMember (member : ProjectMemberRecord) : InMemoryTenantDirectory :=
  { d with projectMembers := d.projectMembers.upsert member }

def withoutMember (organizationId projectId userId : String) : InMemoryTenantDirectory :=
  { d with
    projectMembers := d.projectMembers.erase (membershipKey organizationId projectId userId) }

/-! ### Mutators -/

/-- What a mutator answers, and the directory it leaves. -/
abbrev Outcome := Except RemembraError Unit × InMemoryTenantDirectory

def bump (organizationId : String) : Outcome :=
  match d.requireOrganization organizationId with
  | .error e => (.error e, d)
  | .ok organization => (.ok (), { d with
      organizations := d.organizations.upsert
        { organization with membershipVersion := organization.membershipVersion + 1 } })

/-- The checks, then the change, then the new version. -/
def mutate (organizationId : String) (checks : Except RemembraError Unit)
    (change : InMemoryTenantDirectory) : Outcome :=
  match checks with
  | .error e => (.error e, d)
  | .ok () => change.bump organizationId

def createOrganization (organizationId : String) : Outcome :=
  match assertEntityId organizationId "organization id" with
  | .error e => (.error e, d)
  | .ok () =>
    if d.organizations.has organizationId then
      (.error ⟨.conflict, s!"organization {organizationId} already exists"⟩, d)
    else (.ok (), d.withOrganization organizationId)

def upsertUser (user : TenantDirectoryUser) : Outcome :=
  d.mutate user.organizationId
    (do assertEntityId user.organizationId "organization id"
        assertEntityId user.userId "user id"
        assertDisplayName user.displayName
        let _ ← d.requireOrganization user.organizationId)
    (d.withUser user)

def removeUser (organizationId userId : String) : Outcome :=
  d.mutate organizationId (do let _ ← d.requireOrganization organizationId)
    (d.withoutUser organizationId userId)

def upsertProject (project : TenantDirectoryProject) : Outcome :=
  d.mutate project.organizationId
    (do assertEntityId project.organizationId "organization id"
        assertEntityId project.projectId "project id"
        assertDisplayName project.displayName
        let _ ← d.requireOrganization project.organizationId)
    (d.withProject project)

def removeProject (organizationId projectId : String) : Outcome :=
  d.mutate organizationId (do let _ ← d.requireOrganization organizationId)
    (d.withoutProject organizationId projectId)

/-- An empty reference is not checked and is kept. -/
def upsertAgent (agent : TenantDirectoryAgent) : Outcome :=
  d.mutate agent.organizationId
    (do assertEntityId agent.organizationId "organization id"
        assertEntityId agent.agentId "agent id"
        assertReference agent.userId (assertEntityId · "user id")
        assertReference agent.projectId (assertEntityId · "project id")
        assertDisplayName agent.displayName
        let _ ← d.requireOrganization agent.organizationId
        assertReference agent.userId fun userId =>
          assertKnown (d.users.has (key agent.organizationId userId)) .notFound
            s!"user {userId} not found in organization"
        assertReference agent.projectId fun projectId =>
          assertKnown (d.projects.has (key agent.organizationId projectId)) .notFound
            s!"project {projectId} not found in organization")
    (d.withAgent agent)

def removeAgent (organizationId agentId : String) : Outcome :=
  d.mutate organizationId (do let _ ← d.requireOrganization organizationId)
    (d.withoutAgent organizationId agentId)

def grantProjectMembership (organizationId projectId userId : String)
    (role : TenantMembershipRole := .member) : Outcome :=
  d.mutate organizationId
    (do let _ ← d.requireOrganization organizationId
        assertKnown (d.projects.has (key organizationId projectId)) .notFound
          s!"project {projectId} not found"
        assertKnown (d.users.has (key organizationId userId)) .notFound s!"user {userId} not found")
    (d.withMember ⟨organizationId, projectId, userId, role⟩)

/-- Nothing is checked before the membership goes. -/
def revokeProjectMembership (organizationId projectId userId : String) : Outcome :=
  d.mutate organizationId (.ok ()) (d.withoutMember organizationId projectId userId)

def getMembershipVersion (organizationId : String) : Option String :=
  (d.organizations.get organizationId).map fun organization => toString organization.membershipVersion

end InMemoryTenantDirectory

/-- A call of a mutator. -/
inductive Mutation where
  | createOrganization (organizationId : String)
  | upsertUser (user : TenantDirectoryUser)
  | removeUser (organizationId userId : String)
  | upsertProject (project : TenantDirectoryProject)
  | removeProject (organizationId projectId : String)
  | upsertAgent (agent : TenantDirectoryAgent)
  | removeAgent (organizationId agentId : String)
  | grantProjectMembership (organizationId projectId userId : String) (role : TenantMembershipRole)
  | revokeProjectMembership (organizationId projectId userId : String)
  deriving DecidableEq

def Mutation.organizationId : Mutation → String
  | .createOrganization o => o
  | .upsertUser user => user.organizationId
  | .removeUser o _ => o
  | .upsertProject project => project.organizationId
  | .removeProject o _ => o
  | .upsertAgent agent => agent.organizationId
  | .removeAgent o _ => o
  | .grantProjectMembership o _ _ _ => o
  | .revokeProjectMembership o _ _ => o

namespace InMemoryTenantDirectory

/-- The call made. -/
def apply (d : InMemoryTenantDirectory) : Mutation → Outcome
  | .createOrganization o => d.createOrganization o
  | .upsertUser user => d.upsertUser user
  | .removeUser o userId => d.removeUser o userId
  | .upsertProject project => d.upsertProject project
  | .removeProject o projectId => d.removeProject o projectId
  | .upsertAgent agent => d.upsertAgent agent
  | .removeAgent o agentId => d.removeAgent o agentId
  | .grantProjectMembership o projectId userId role => d.grantProjectMembership o projectId userId role
  | .revokeProjectMembership o projectId userId => d.revokeProjectMembership o projectId userId

/-! ### Snapshots -/

def snapshot (d : InMemoryTenantDirectory) : TenantDirectorySnapshot :=
  ⟨d.organizations.rows, d.users.rows, d.projects.rows, d.agents.rows, d.projectMembers.rows,
    d.projectAgents.rows⟩

end InMemoryTenantDirectory

/-- `directorySnapshotSchema` -/
def acceptsSnapshot (s : TenantDirectorySnapshot) : Bool :=
  (s.organizations.length ≤ 100000 && s.organizations.all fun o =>
    isValidTenantId o.organizationId && decide (0 < o.membershipVersion)) &&
  (s.users.length ≤ 1000000 && s.users.all fun u =>
    isValidTenantId u.organizationId && isValidTenantId u.userId && isDisplayName u.displayName) &&
  (s.projects.length ≤ 1000000 && s.projects.all fun p =>
    isValidTenantId p.organizationId && isValidTenantId p.projectId && isDisplayName p.displayName) &&
  (s.agents.length ≤ 1000000 && s.agents.all fun a =>
    isValidTenantId a.organizationId && isValidTenantId a.agentId && a.userId.all isValidTenantId &&
      a.projectId.all isValidTenantId && isDisplayName a.displayName) &&
  (s.projectMembers.length ≤ 5000000 && s.projectMembers.all fun m =>
    isValidTenantId m.organizationId && isValidTenantId m.projectId && isValidTenantId m.userId) &&
  (s.projectAgents.length ≤ 5000000 && s.projectAgents.all fun a =>
    isValidTenantId a.organizationId && isValidTenantId a.projectId && isValidTenantId a.agentId)

/-- Why a snapshot is not loaded: the schema's own error, or one of the directory. -/
inductive LoadError where
  | schema
  | refused (error : RemembraError)
  deriving DecidableEq

def refuse (message : String) : RemembraError := ⟨.invalidInput, message⟩

namespace InMemoryTenantDirectory

/-- The last loop: every agent with a project has its association. -/
def assertAssociated (d : InMemoryTenantDirectory) : Except RemembraError Unit :=
  assertKnown
    (d.agents.rows.all fun agent =>
      (truthy agent.projectId).isNone || d.projectAgents.has agent.key)
    .invalidInput "agent is missing its project association"

def loadSnapshot (s : TenantDirectorySnapshot) :
    Except RemembraError InMemoryTenantDirectory := do
  let organizations ← Table.load (fun _ => .ok ())
    (fun o => refuse s!"duplicate organization {o.organizationId}") (fun _ => .ok ())
    s.organizations .empty
  let d : InMemoryTenantDirectory := { organizations }
  let inOrganization (organizationId : String) : Except RemembraError Unit := do
    let _ ← d.requireOrganization organizationId
  let users ← Table.load (fun u => inOrganization u.organizationId)
    (fun u => refuse s!"duplicate user {u.userId}") (fun _ => .ok ()) s.users .empty
  let projects ← Table.load (fun p => inOrganization p.organizationId)
    (fun p => refuse s!"duplicate project {p.projectId}") (fun _ => .ok ()) s.projects .empty
  let agents ← Table.load (fun a => inOrganization a.organizationId)
    (fun a => refuse s!"duplicate agent {a.agentId}")
    (fun a => do
      assertReference a.userId fun userId => assertKnown (users.has (key a.organizationId userId))
        .invalidInput s!"agent {a.agentId} references an unknown user"
      assertReference a.projectId fun projectId =>
        assertKnown (projects.has (key a.organizationId projectId))
          .invalidInput s!"agent {a.agentId} references an unknown project")
    s.agents .empty
  let projectMembers ← Table.load
    (fun m => do
      inOrganization m.organizationId
      assertKnown (projects.has (key m.organizationId m.projectId))
        .invalidInput "membership references an unknown project"
      assertKnown (users.has (key m.organizationId m.userId))
        .invalidInput "membership references an unknown user")
    (fun _ => refuse "duplicate project membership") (fun _ => .ok ()) s.projectMembers .empty
  let projectAgents ← Table.load
    (fun a => do
      inOrganization a.organizationId
      assertKnown (projects.has (key a.organizationId a.projectId))
        .invalidInput "project agent references an unknown project"
      assertKnown ((agents.get (key a.organizationId a.agentId)).any fun agent =>
          agent.projectId = some a.projectId)
        .invalidInput "project agent does not match its agent project")
    (fun _ => refuse "duplicate project agent") (fun _ => .ok ()) s.projectAgents .empty
  let directory : InMemoryTenantDirectory :=
    { organizations, users, projects, agents, projectMembers, projectAgents }
  directory.assertAssociated
  return directory

def fromSnapshot (s : TenantDirectorySnapshot) : Except LoadError InMemoryTenantDirectory :=
  if acceptsSnapshot s then (loadSnapshot s).mapError .refused else .error .schema

end InMemoryTenantDirectory

/-! ### Contexts -/

/-- `TenantPrincipalSchema` asks for valid ids (`TenantId`) and for what `acceptsPrincipal` says. -/
structure TenantPrincipal extends Service.TenantPrincipal where
  membershipVersion : String
  scopes : Option (List String) := none

/-- `global`, or a kind and a name: one or more ASCII letters, digits, `.`, `_`, `:` or `-`. -/
def isTenantScope (s : String) : Bool :=
  s = "global" || s.length ≤ 512 && ["project/", "agent/", "task/", "council/"].any fun kind =>
    kind.toList.isPrefixOf s.toList && s ≠ kind &&
      (s.toList.drop kind.toList.length).all Store.isTenantIdChar

def acceptsPrincipal (p : TenantPrincipal) : Bool :=
  let dimensions := p.userId.isSome || p.projectId.isSome || p.agentId.isSome
  p.membershipVersion ≠ "" && utf16Length p.membershipVersion ≤ 128 &&
    p.scopes.all (fun l => l.length ≤ 256 && l.all isTenantScope) && p.capabilities.length ≤ 16 &&
    (!dimensions || p.scopes.any (· ≠ [])) &&
    (dimensions || p.capabilities.any fun c => c = .read || c = .admin) &&
    (TenantCapability.admin ∉ p.capabilities || TenantCapability.read ∈ p.capabilities)

/-- A context that `createTenantContext` has minted. -/
structure TenantContext where
  principal : TenantPrincipal
  accepted : acceptsPrincipal principal = true

namespace InMemoryTenantDirectory
variable (d : InMemoryTenantDirectory)

/-- Both are given, and they differ. -/
def contradicts (asked : Option TenantId) (held : Option String) : Bool :=
  asked.any fun id => (truthy held).any fun value => value ≠ id.1

/-- A member of the project, or an agent that works in it. -/
def projectAllowed (principal : TenantPrincipal) (projectId : TenantId) : Bool :=
  let userAllowed := principal.userId.any fun userId =>
    d.projectMembers.has (membershipKey principal.organizationId.1 projectId.1 userId.1)
  let agentAllowed := principal.agentId.any fun agentId =>
    (d.projectAgents.get (key principal.organizationId.1 agentId.1)).any fun agent =>
      agent.projectId = projectId.1
  userAllowed || agentAllowed

def verifyContext (context : TenantContext) : Bool :=
  let principal := context.principal
  let organizationId := principal.organizationId.1
  let isAdmin : Bool := TenantCapability.admin ∈ principal.capabilities
  (d.getMembershipVersion organizationId = some principal.membershipVersion) &&
  (principal.userId.all fun userId => d.users.has (key organizationId userId.1)) &&
  (principal.agentId.all fun agentId =>
    (d.agents.get (key organizationId agentId.1)).any fun agent =>
      !contradicts principal.userId agent.userId &&
        !contradicts principal.projectId agent.projectId) &&
  (principal.projectId.all fun projectId =>
    d.projects.has (key organizationId projectId.1) &&
      (isAdmin || d.projectAllowed principal projectId) &&
      (isAdmin || principal.scopes.any fun scopes => ("project/" ++ projectId.1) ∈ scopes)) &&
  !(principal.projectId.isNone && principal.userId.isNone && principal.agentId.isNone && !isAdmin &&
    principal.capabilities.isEmpty)

end InMemoryTenantDirectory

/-! ### Keys -/

theorem noNul_of_valid {s : String} (h : isValidTenantId s = true) : '\u0000' ∉ s.toList := by
  simp only [isValidTenantId, Bool.and_eq_true, List.all_eq_true] at h
  intro hm
  exact absurd (h.1.1.2 _ hm) (by decide)

theorem key_inj {o o' i i' : String} (ho : isValidTenantId o = true) (ho' : isValidTenantId o' = true) :
    key o i = key o' i' ↔ o = o' ∧ i = i' := by
  constructor
  · exact Delimited.join_inj_first (noNul_of_valid ho) (noNul_of_valid ho')
  · rintro ⟨rfl, rfl⟩
    rfl

/-- The key of a membership of valid ids is no other membership's: there are two delimiters in it, so
    there is none in the parts. -/
theorem membershipKey_inj {o p u o' p' u' : String} (ho : isValidTenantId o = true)
    (hp : isValidTenantId p = true) (hu : isValidTenantId u = true) :
    membershipKey o p u = membershipKey o' p' u' ↔ o = o' ∧ p = p' ∧ u = u' := by
  constructor
  · intro h
    have hcount := congrArg (fun s : String => s.toList.count '\u0000') h
    simp only [membershipKey, key, Delimited.toList_join, List.count_append, List.count_cons_self,
      List.count_eq_zero.mpr (noNul_of_valid ho), List.count_eq_zero.mpr (noNul_of_valid hp),
      List.count_eq_zero.mpr (noNul_of_valid hu)] at hcount
    have hu' : '\u0000' ∉ u'.toList := List.count_eq_zero.mp (by omega)
    have ho' : '\u0000' ∉ o'.toList := List.count_eq_zero.mp (by omega)
    obtain ⟨hop, rfl⟩ := Delimited.join_inj_last (noNul_of_valid hu) hu' h
    obtain ⟨rfl, rfl⟩ := Delimited.join_inj_first (noNul_of_valid ho) ho' hop
    exact ⟨rfl, rfl, rfl⟩
  · rintro ⟨rfl, rfl, rfl⟩
    rfl

/-! ### When a call is accepted -/

@[simp] theorem assertEntityId_eq_ok {value label : String} :
    assertEntityId value label = .ok () ↔ isValidTenantId value = true := by
  rw [assertEntityId]
  split <;> simp [*]

@[simp] theorem assertDisplayName_eq_ok {value : Option String} :
    assertDisplayName value = .ok () ↔ isDisplayName value = true := by
  rw [assertDisplayName]
  split <;> simp [*]

/-- One check after the other. -/
theorem bind_eq_ok {ε α β : Type} {x : Except ε α} {f : α → Except ε β} {b : β} :
    x >>= f = .ok b ↔ ∃ a, x = .ok a ∧ f a = .ok b := by
  cases x <;> simp [bind, Except.bind]

@[simp] theorem seq_eq_ok {ε β : Type} {x : Except ε Unit} {f : Unit → Except ε β} {b : β} :
    x >>= f = .ok b ↔ x = .ok () ∧ f () = .ok b := by
  rw [bind_eq_ok]
  exact ⟨fun ⟨_, hx, hf⟩ => ⟨hx, hf⟩, fun ⟨hx, hf⟩ => ⟨(), hx, hf⟩⟩

namespace InMemoryTenantDirectory
variable {d : InMemoryTenantDirectory}

@[simp] theorem assertKnown_eq_ok {known : Bool} {code : ErrorCode} {message : String} :
    assertKnown known code message = .ok () ↔ known = true := by
  rw [assertKnown]
  split <;> simp [*]

theorem assertReference_eq_ok {reference : Option String} {check : String → Except RemembraError Unit} :
    assertReference reference check = .ok () ↔ ∀ id, truthy reference = some id → check id = .ok () := by
  rw [assertReference]
  split <;> simp [*]

/-- The organization is there, under a valid id. -/
def Knows (d : InMemoryTenantDirectory) (organizationId : String) : Prop :=
  isValidTenantId organizationId = true ∧ d.organizations.has organizationId = true

theorem requireOrganization_eq_ok {o : String} {organization : OrganizationRecord} :
    d.requireOrganization o = .ok organization ↔
      isValidTenantId o = true ∧ d.organizations.get o = some organization := by
  rw [requireOrganization, seq_eq_ok, assertEntityId_eq_ok]
  refine and_congr_right fun _ => ?_
  split <;> simp [*]

theorem exists_requireOrganization {o : String} :
    (∃ organization, d.requireOrganization o = .ok organization) ↔ d.Knows o := by
  simp only [requireOrganization_eq_ok, exists_and_left, Knows, Table.has, Option.isSome_iff_exists]

/-- The directory with the organization's version one higher. -/
def bumped (d : InMemoryTenantDirectory) (organizationId : String) : InMemoryTenantDirectory :=
  { d with
    organizations := d.organizations.mapRows
      (fun o => if o.organizationId = organizationId then
        { o with membershipVersion := o.membershipVersion + 1 } else o)
      fun o => by split <;> rfl }

theorem bump_of_knows {o : String} (h : d.Knows o) : d.bump o = (.ok (), d.bumped o) := by
  obtain ⟨organization, hget⟩ := exists_requireOrganization.mpr h
  rw [bump, hget]
  obtain ⟨-, hrow⟩ := requireOrganization_eq_ok.mp hget
  obtain rfl : organization.organizationId = o := Table.key_of_get hrow
  refine Prod.ext rfl ?_
  change { d with organizations := _ } = { d with organizations := _ }
  congr 1
  refine Table.ext_rows ?_
  rw [Table.upsert_of_get (by simp [hrow])]
  refine List.map_congr_left fun r hr => ?_
  by_cases hkey : r.organizationId = organization.organizationId
  · obtain rfl : r = organization :=
      Option.some.inj ((Table.get_of_mem hr).symm.trans ((congrArg _ hkey).trans hrow))
    simp
  · simp [hkey]

theorem bump_of_not_knows {o : String} (h : ¬ d.Knows o) : ∃ e, d.bump o = (.error e, d) := by
  rw [bump]
  cases hreq : d.requireOrganization o with
  | error e => exact ⟨e, rfl⟩
  | ok organization => exact absurd (exists_requireOrganization.mp ⟨organization, hreq⟩) h

/-- What a mutator asks of its arguments and of the directory. -/
def Admissible (d : InMemoryTenantDirectory) : Mutation → Prop
  | .createOrganization o => isValidTenantId o = true ∧ d.organizations.has o = false
  | .upsertUser user => d.Knows user.organizationId ∧ isValidTenantId user.userId = true ∧
      isDisplayName user.displayName = true
  | .upsertProject project => d.Knows project.organizationId ∧
      isValidTenantId project.projectId = true ∧ isDisplayName project.displayName = true
  | .upsertAgent agent => d.Knows agent.organizationId ∧ isValidTenantId agent.agentId = true ∧
      isDisplayName agent.displayName = true ∧
      (∀ userId, truthy agent.userId = some userId → isValidTenantId userId = true ∧
        d.users.has (key agent.organizationId userId) = true) ∧
      ∀ projectId, truthy agent.projectId = some projectId → isValidTenantId projectId = true ∧
        d.projects.has (key agent.organizationId projectId) = true
  | .grantProjectMembership o projectId userId _ => d.Knows o ∧
      d.projects.has (key o projectId) = true ∧ d.users.has (key o userId) = true
  | .removeUser o _ | .removeProject o _ | .removeAgent o _ | .revokeProjectMembership o _ _ => d.Knows o

/-- The directory after a mutator that is accepted, before the bump. -/
def changed (d : InMemoryTenantDirectory) : Mutation → InMemoryTenantDirectory
  | .createOrganization o => d.withOrganization o
  | .upsertUser user => d.withUser user
  | .removeUser o userId => d.withoutUser o userId
  | .upsertProject project => d.withProject project
  | .removeProject o projectId => d.withoutProject o projectId
  | .upsertAgent agent => d.withAgent agent
  | .removeAgent o agentId => d.withoutAgent o agentId
  | .grantProjectMembership o projectId userId role => d.withMember ⟨o, projectId, userId, role⟩
  | .revokeProjectMembership o projectId userId => d.withoutMember o projectId userId

/-- The directory after a mutator that is accepted. A new organization starts at its first version. -/
def next (d : InMemoryTenantDirectory) (m : Mutation) : InMemoryTenantDirectory :=
  match m with
  | .createOrganization _ => d.changed m
  | _ => (d.changed m).bumped m.organizationId

/-- No mutator but `createOrganization` touches the organizations before it bumps one. -/
theorem knows_changed (m : Mutation) (hm : ∀ o, m ≠ .createOrganization o) (o : String) :
    (d.changed m).Knows o ↔ d.Knows o := by
  cases m
  case createOrganization o => exact absurd rfl (hm o)
  all_goals exact Iff.rfl

theorem mutate_of_ok {o : String} {checks : Except RemembraError Unit} {change : InMemoryTenantDirectory}
    (hchecks : checks = .ok ()) (h : change.Knows o) :
    d.mutate o checks change = (.ok (), change.bumped o) := by
  subst hchecks
  exact bump_of_knows h

theorem mutate_of_error {o : String} {checks : Except RemembraError Unit}
    {change : InMemoryTenantDirectory} (hchecks : checks ≠ .ok ()) :
    ∃ e, d.mutate o checks change = (.error e, d) := by
  cases checks with
  | error e => exact ⟨e, rfl⟩
  | ok => exact absurd rfl hchecks

@[simp] theorem require_eq_ok {β : Type} {o : String} {x : Except RemembraError β} {b : β} :
    (d.requireOrganization o >>= fun _ => x) = .ok b ↔ d.Knows o ∧ x = .ok b := by
  rw [bind_eq_ok, exists_and_right, exists_requireOrganization]

/-- The mutators that check first: what they check is what they ask. -/
theorem apply_eq_mutate {m : Mutation} (hcreate : ∀ o, m ≠ .createOrganization o)
    (hrevoke : ∀ o p u, m ≠ .revokeProjectMembership o p u) :
    ∃ checks, (checks = .ok () ↔ d.Admissible m) ∧
      d.apply m = d.mutate m.organizationId checks (d.changed m) := by
  cases m with
  | createOrganization o => exact absurd rfl (hcreate o)
  | revokeProjectMembership o p u => exact absurd rfl (hrevoke o p u)
  | upsertUser user =>
    refine ⟨_, ?_, rfl⟩
    simp only [seq_eq_ok, require_eq_ok, assertEntityId_eq_ok, assertDisplayName_eq_ok, Admissible, Knows]
    tauto
  | upsertProject project =>
    refine ⟨_, ?_, rfl⟩
    simp only [seq_eq_ok, require_eq_ok, assertEntityId_eq_ok, assertDisplayName_eq_ok, Admissible, Knows]
    tauto
  | upsertAgent agent =>
    refine ⟨_, ?_, rfl⟩
    simp only [seq_eq_ok, require_eq_ok, assertEntityId_eq_ok, assertDisplayName_eq_ok,
      assertReference_eq_ok, assertKnown_eq_ok, Admissible, Knows, forall_and]
    tauto
  | grantProjectMembership o projectId userId role =>
    refine ⟨_, ?_, rfl⟩
    simp only [seq_eq_ok, require_eq_ok, assertKnown_eq_ok, Admissible]
  | removeUser o userId => exact ⟨_, require_eq_ok.trans (and_iff_left rfl), rfl⟩
  | removeProject o projectId => exact ⟨_, require_eq_ok.trans (and_iff_left rfl), rfl⟩
  | removeAgent o agentId => exact ⟨_, require_eq_ok.trans (and_iff_left rfl), rfl⟩

theorem knows_of_admissible {m : Mutation} (h : d.Admissible m) (hm : ∀ o, m ≠ .createOrganization o) :
    d.Knows m.organizationId := by
  cases m
  case createOrganization o => exact absurd rfl (hm o)
  case removeUser | removeProject | removeAgent | revokeProjectMembership => exact h
  all_goals exact h.1

theorem next_of_ne_create {m : Mutation} (hm : ∀ o, m ≠ .createOrganization o) :
    d.next m = (d.changed m).bumped m.organizationId := by
  cases m
  case createOrganization o => exact absurd rfl (hm o)
  all_goals rfl

/-- An admissible call is accepted. -/
theorem apply_of_admissible {m : Mutation} (h : d.Admissible m) : d.apply m = (.ok (), d.next m) := by
  by_cases hcreate : ∀ o, m ≠ .createOrganization o
  · have hknows := (knows_changed m hcreate _).mpr (knows_of_admissible h hcreate)
    rw [next_of_ne_create hcreate]
    by_cases hrevoke : ∀ o p u, m ≠ .revokeProjectMembership o p u
    · obtain ⟨checks, hchecks, happly⟩ := apply_eq_mutate (d := d) hcreate hrevoke
      rw [happly]
      exact mutate_of_ok (hchecks.mpr h) hknows
    · push Not at hrevoke
      obtain ⟨o, p, u, rfl⟩ := hrevoke
      exact mutate_of_ok (d := d) rfl hknows
  · push Not at hcreate
    obtain ⟨o, rfl⟩ := hcreate
    obtain ⟨hvalid, hfree⟩ := h
    simp [apply, createOrganization, assertEntityId, hvalid, hfree, next, changed]

/-- A call that is not admissible is refused. Nothing has changed then, unless a membership was to be
    revoked: that goes before the organization is looked for. -/
theorem apply_of_not_admissible {m : Mutation} (h : ¬ d.Admissible m) :
    ∃ e, d.apply m = (.error e, d) ∨ ∃ o projectId userId,
      m = .revokeProjectMembership o projectId userId ∧
        d.apply m = (.error e, d.withoutMember o projectId userId) := by
  by_cases hcreate : ∀ o, m ≠ .createOrganization o
  · by_cases hrevoke : ∀ o p u, m ≠ .revokeProjectMembership o p u
    · obtain ⟨checks, hchecks, happly⟩ := apply_eq_mutate (d := d) hcreate hrevoke
      obtain ⟨e, he⟩ : ∃ e, d.mutate m.organizationId checks (d.changed m) = (.error e, d) :=
        mutate_of_error fun hok => h (hchecks.mp hok)
      exact ⟨e, .inl (happly.trans he)⟩
    · push Not at hrevoke
      obtain ⟨o, p, u, rfl⟩ := hrevoke
      obtain ⟨e, he⟩ := bump_of_not_knows (d := d.withoutMember o p u) h
      exact ⟨e, .inr ⟨o, p, u, rfl, he⟩⟩
  · push Not at hcreate
    obtain ⟨o, rfl⟩ := hcreate
    simp only [apply, createOrganization, assertEntityId]
    by_cases hvalid : isValidTenantId o = true
    · have htaken : d.organizations.has o = true := by
        by_contra hfree
        exact h ⟨hvalid, Bool.eq_false_iff.mpr hfree⟩
      rw [if_pos hvalid]
      exact ⟨_, .inl (if_pos htaken)⟩
    · rw [if_neg hvalid]
      exact ⟨_, .inl rfl⟩

end InMemoryTenantDirectory
end Remembra.Tenant
