import Remembra.TenantMigration.Plan

/-! What a plan makes of its source. Every field of a destination is the source's or its image under the
    mappings of the manifest, except for the scope, which stays; every reference leads to a memory of the
    plan, in the organization of that memory's own namespace. So a plan does what its mappings say
    exactly where no scope mapping changes a scope and no reference leaves its namespace. -/

namespace Remembra.TenantMigration
open Store (Memory)
open Service (forall₂_mem)

variable {P : Platform} {I : Issues} {input : PlanInput} {key : List UInt8} {now : String}
  {plan : TenantMigrationPlan} {source : Memory} {r : DestinationRecord}

/-- The destination is the source with the images of what is mapped. -/
structure Mapped (manifest : TenantMigrationManifest) (sourceNamespace : Memory → String)
    (r : DestinationRecord) : Prop where
  organization : ∃ mapping ∈ manifest.organizationMappings,
    mapping.sourceNamespace = sourceNamespace r.source ∧
      r.destination.tenantId = some mapping.destination
  project : ImageOf manifest.entityMappings.projects r.source.projectId r.destination.projectId
  user : ImageOf manifest.entityMappings.users r.source.userId r.destination.userId
  agent : ImageOf manifest.entityMappings.agents r.source.agentId r.destination.agentId
  scope : ScopeImage manifest.entityMappings.scopes r.source.scope r.destination.scope
  acl : AclImage manifest.aclMappings (r.source.owner.getD .global) (r.source.access.getD .global)
    (r.destination.owner, r.destination.access)
  rest : r.destination = { r.source with
    tenantId := r.destination.tenantId
    projectId := r.destination.projectId
    userId := r.destination.userId
    agentId := r.destination.agentId
    scope := r.destination.scope
    owner := r.destination.owner
    access := r.destination.access }

/-- The record of the manifest that describes a record of the plan. -/
structure Describes (P : Platform) (r : DestinationRecord) (described : ManifestRecord) : Prop where
  id : described.id = r.source.id
  organization : r.destination.tenantId = some described.organizationId
  checksum : described.sha256 = sha256 P (memoryValue r.source)

/-- The plan does what its mappings say. -/
structure Faithful (P : Platform) (input : PlanInput) (plan : TenantMigrationPlan) : Prop where
  sources : plan.records.map DestinationRecord.source = input.source
  mapped : ∀ r ∈ plan.records, Mapped plan.manifest input.sourceNamespace r
  /-- Records and manifest agree one to one. -/
  described : List.Forall₂ (Describes P) plan.records plan.manifest.records
  distinct : (plan.records.map fun r => r.source.id).Nodup
  closed : ∀ r ∈ plan.records, ∀ id ∈ targets r.destination,
    ∃ r' ∈ plan.records, r'.destination.id = id ∧ r'.destination.tenantId = r.destination.tenantId

/-- No scope mapping that is given for a source memory's scope changes it. -/
def KeepsScopes (input : PlanInput) : Prop :=
  ∀ m ∈ input.source, ∀ mapping ∈ input.entityMappings.scopes,
    mapping.source = m.scope → mapping.destination = m.scope

/-- No memory refers to one of another namespace. -/
def StaysInside (input : PlanInput) : Prop :=
  ∀ m ∈ input.source, ∀ target ∈ input.source, target.id ∈ targets m →
    input.sourceNamespace target = input.sourceNamespace m

/-! ### Destinations -/

/-- The image under the mappings, the scope aside: it stays. -/
structure Moved (entityMappings : EntityMappings) (aclMappings : List AclMapping)
    (organizationId : String) (source destination : Memory) : Prop where
  organization : destination.tenantId = some organizationId
  project : ImageOf entityMappings.projects source.projectId destination.projectId
  user : ImageOf entityMappings.users source.userId destination.userId
  agent : ImageOf entityMappings.agents source.agentId destination.agentId
  acl : AclImage aclMappings (source.owner.getD .global) (source.access.getD .global)
    (destination.owner, destination.access)
  rest : destination = { source with
    tenantId := destination.tenantId
    projectId := destination.projectId
    userId := destination.userId
    agentId := destination.agentId
    owner := destination.owner
    access := destination.access }

theorem moved_of_destinationFor {entityMappings : EntityMappings} {aclMappings : List AclMapping}
    {organizationId : String} {destination : Memory}
    (hprojects : acceptsMappings entityMappings.projects = true)
    (husers : acceptsMappings entityMappings.users = true)
    (hagents : acceptsMappings entityMappings.agents = true)
    (h : destinationFor entityMappings aclMappings organizationId source = .ok destination) :
    Moved entityMappings aclMappings organizationId source destination := by
  obtain ⟨projectId, hproject, h⟩ := Service.except_bind_eq_ok.mp h
  obtain ⟨userId, huser, h⟩ := Service.except_bind_eq_ok.mp h
  obtain ⟨agentId, hagent, h⟩ := Service.except_bind_eq_ok.mp h
  obtain rfl := Except.ok.inj h
  have hproject := mappingValue_image hproject
  have huser := mappingValue_image huser
  have hagent := mappingValue_image hagent
  refine ⟨rfl, ?_, ?_, ?_, aclPairs_image _ _ _, rfl⟩
  · exact (truthy_image_or hprojects hproject).symm ▸ hproject
  · exact (truthy_image_or husers huser).symm ▸ huser
  · exact (truthy_image_or hagents hagent).symm ▸ hagent

theorem Moved.scope {entityMappings : EntityMappings} {aclMappings : List AclMapping}
    {organizationId : String} {destination : Memory}
    (h : Moved entityMappings aclMappings organizationId source destination) :
    destination.scope = source.scope := by
  rw [h.rest]

/-- A memory refers to the same ids before and after. -/
theorem Moved.targets {entityMappings : EntityMappings} {aclMappings : List AclMapping}
    {organizationId : String} {destination : Memory}
    (h : Moved entityMappings aclMappings organizationId source destination) :
    targets destination = TenantMigration.targets source := by
  rw [h.rest]
  rfl

/-- A scope is its own image where its mapping, if there is one, says so. -/
theorem scopeImage_self_iff {mappings : List EntityMapping}
    (hdistinct : (mappings.map EntityMapping.source).Nodup) {scope : String} :
    ScopeImage mappings scope scope ↔
      ∀ mapping ∈ mappings, mapping.source = scope → mapping.destination = scope := by
  constructor
  · rintro (⟨mapping, hmem, hsource, hdestination⟩ | ⟨hnone, -⟩) mapping' hmem' hsource'
    · obtain rfl := List.inj_on_of_nodup_map hdistinct hmem hmem' (hsource.trans hsource'.symm)
      exact hdestination.symm
    · exact absurd hsource' (hnone mapping' hmem')
  · intro h
    by_cases hmapped : ∃ mapping ∈ mappings, mapping.source = scope
    · obtain ⟨mapping, hmem, hsource⟩ := hmapped
      exact .inl ⟨mapping, hmem, hsource, (h mapping hmem hsource).symm⟩
    · push Not at hmapped
      exact .inr ⟨hmapped, rfl⟩

/-! ### The parts of the law -/

/-- What the schema asks of the mappings of a plan. -/
structure MappingsAccepted (manifest : TenantMigrationManifest) : Prop where
  projects : acceptsMappings manifest.entityMappings.projects = true
  users : acceptsMappings manifest.entityMappings.users = true
  agents : acceptsMappings manifest.entityMappings.agents = true
  scopes : (manifest.entityMappings.scopes.map EntityMapping.source).Nodup
  namespaces : (manifest.organizationMappings.map OrganizationMapping.sourceNamespace).Nodup
  organizations : (manifest.organizationMappings.map OrganizationMapping.destination).Nodup

theorem mappingsAccepted {manifest : TenantMigrationManifest}
    (h : acceptsBody manifest.toManifestBody = true) : MappingsAccepted manifest := by
  simp only [acceptsBody, acceptsShape, distinctMappings, distinct, Bool.and_eq_true,
    decide_eq_true_eq] at h
  constructor <;> tauto

/-- The record of a plan, spelled out. -/
theorem IsPlan.record (hplan : IsPlan P key input plan) (hr : r ∈ plan.records) :
    r.source ∈ input.source ∧
      (∀ id ∈ targets r.source, ∃ target ∈ input.source, target.id = id) ∧
      ∃ mapping ∈ plan.manifest.organizationMappings,
        mapping.sourceNamespace = input.sourceNamespace r.source ∧
          Moved plan.manifest.entityMappings plan.manifest.aclMappings mapping.destination r.source
            r.destination := by
  obtain ⟨source, hsource, rfl, ⟨mapping, hmapping, hnamespace, hdestination⟩, hreferences⟩ :=
    (forall₂_mem hplan.records).2 r hr
  have haccepted := mappingsAccepted hplan.accepted
  rw [← hplan.entityMappings, ← hplan.aclMappings] at hdestination
  refine ⟨hsource, hreferences, mapping, hplan.organizationMappings ▸ hmapping, hnamespace, ?_⟩
  exact moved_of_destinationFor haccepted.projects haccepted.users haccepted.agents hdestination

theorem IsPlan.sources (hplan : IsPlan P key input plan) :
    plan.records.map DestinationRecord.source = input.source := by
  have hsame : List.Forall₂ (· = ·) input.source (plan.records.map DestinationRecord.source) :=
    List.forall₂_map_right_iff.mpr (hplan.records.imp fun _ _ h => h.same.symm)
  rw [List.forall₂_eq_eq_eq] at hsame
  exact hsame.symm

theorem IsPlan.ids_distinct (hplan : IsPlan P key input plan) :
    (plan.records.map fun r => r.source.id).Nodup := by
  have hids := hplan.ids
  rwa [← hplan.sources, List.map_map] at hids

/-- Each memory of the source has its record. -/
theorem IsPlan.record_of_source (hplan : IsPlan P key input plan) (hsource : source ∈ input.source) :
    ∃ r ∈ plan.records, r.source = source := by
  rw [← hplan.sources] at hsource
  exact List.mem_map.mp hsource

theorem IsPlan.described (hplan : IsPlan P key input plan) :
    List.Forall₂ (Describes P) plan.records plan.manifest.records := by
  rw [hplan.manifestRecords, List.forall₂_map_right_iff, List.forall₂_same]
  intro r hr
  obtain ⟨-, -, mapping, -, -, hmoved⟩ := hplan.record hr
  refine ⟨rfl, ?_, rfl⟩
  rw [DestinationRecord.manifestRecord, hmoved.organization, Option.getD_some]

theorem IsPlan.mapped_iff (hplan : IsPlan P key input plan) (hr : r ∈ plan.records) :
    Mapped plan.manifest input.sourceNamespace r ↔
      ∀ mapping ∈ input.entityMappings.scopes, mapping.source = r.source.scope →
        mapping.destination = r.source.scope := by
  obtain ⟨-, -, mapping, hmapping, hnamespace, hmoved⟩ := hplan.record hr
  rw [← hplan.entityMappings, ← scopeImage_self_iff (mappingsAccepted hplan.accepted).scopes]
  constructor
  · intro h
    have hscope := h.scope
    rwa [hmoved.scope] at hscope
  · intro h
    refine ⟨⟨mapping, hmapping, hnamespace, hmoved.organization⟩, hmoved.project, hmoved.user,
      hmoved.agent, ?_, hmoved.acl, ?_⟩
    · rw [hmoved.scope]
      exact h
    · rw [hmoved.scope]
      exact hmoved.rest

/-- Two memories go to one organization where they are of one namespace: no organization is mapped to
    twice. -/
theorem IsPlan.same_organization_iff (hplan : IsPlan P key input plan) (hr : r ∈ plan.records)
    {r' : DestinationRecord} (hr' : r' ∈ plan.records) :
    r'.destination.tenantId = r.destination.tenantId ↔
      input.sourceNamespace r'.source = input.sourceNamespace r.source := by
  obtain ⟨-, -, mapping, hmapping, hnamespace, hmoved⟩ := hplan.record hr
  obtain ⟨-, -, mapping', hmapping', hnamespace', hmoved'⟩ := hplan.record hr'
  have haccepted := mappingsAccepted hplan.accepted
  rw [hmoved.organization, hmoved'.organization, Option.some.injEq, ← hnamespace, ← hnamespace']
  constructor
  · intro h
    rw [List.inj_on_of_nodup_map haccepted.organizations hmapping' hmapping h]
  · intro h
    rw [List.inj_on_of_nodup_map haccepted.namespaces hmapping' hmapping h]

theorem IsPlan.closed_iff (hplan : IsPlan P key input plan) :
    (∀ r ∈ plan.records, ∀ id ∈ targets r.destination, ∃ r' ∈ plan.records,
      r'.destination.id = id ∧ r'.destination.tenantId = r.destination.tenantId) ↔ StaysInside input := by
  have hkeeps : ∀ r ∈ plan.records, targets r.destination = targets r.source ∧
      r.destination.id = r.source.id := by
    intro r hr
    obtain ⟨-, -, mapping, -, -, hmoved⟩ := hplan.record hr
    exact ⟨hmoved.targets, by rw [hmoved.rest]⟩
  constructor
  · intro h m hm target htarget hid
    obtain ⟨r, hr, rfl⟩ := hplan.record_of_source hm
    obtain ⟨r'', hr'', rfl⟩ := hplan.record_of_source htarget
    rw [← (hkeeps r hr).1] at hid
    obtain ⟨r', hr', hsame, horganization⟩ := h r hr _ hid
    rw [(hkeeps r' hr').2] at hsame
    obtain rfl := List.inj_on_of_nodup_map hplan.ids_distinct hr' hr'' hsame
    exact (hplan.same_organization_iff hr hr').mp horganization
  · intro h r hr id hid
    rw [(hkeeps r hr).1] at hid
    obtain ⟨hsource, hreferences, -⟩ := hplan.record hr
    obtain ⟨target, htarget, rfl⟩ := hreferences id hid
    obtain ⟨r', hr', rfl⟩ := hplan.record_of_source htarget
    exact ⟨r', hr', (hkeeps r' hr').2, (hplan.same_organization_iff hr hr').mpr (h _ hsource _ htarget hid)⟩

/-- A plan does what its mappings say exactly where the recorded scope mappings change no scope and no
    reference leaves its namespace. -/
theorem plan_faithful_iff (h : planTenantMigration P I input key now = .ok plan) :
    Faithful P input plan ↔ KeepsScopes input ∧ StaysInside input := by
  have hplan := isPlan h
  constructor
  · intro hfaithful
    refine ⟨fun m hm => ?_, hplan.closed_iff.mp hfaithful.closed⟩
    obtain ⟨r, hr, rfl⟩ := hplan.record_of_source hm
    exact (hplan.mapped_iff hr).mp (hfaithful.mapped r hr)
  · rintro ⟨hscopes, hinside⟩
    refine ⟨hplan.sources, fun r hr => ?_, hplan.described, hplan.ids_distinct, hplan.closed_iff.mpr hinside⟩
    exact (hplan.mapped_iff hr).mpr (hscopes r.source (hplan.record hr).1)

/-! ### A note of a team -/

/-- What the platform answers where one note is planned; the signature is the manifest's. -/
def teamPlatform (signature : String) : Platform where
  numText n := if n = .finite 1 then "1" else if n = .finite 3 then "3" else "4"
  sha256 _ := "627e18e0bb92173f2b20766a62f6e9aeabdf8a39591e363a08dbe424e8e1804b"
  hmac _ _ := signature

def noIssues : Issues := ⟨fun _ => "invalid", fun _ => "invalid", fun _ => "invalid"⟩

def teamNote : Memory where
  id := "aaaaaaaa"
  type := .fact
  content := "a note"
  scope := "team-old"
  projectId := some "p-old"
  tags := []
  importance := 3
  confidence := 1
  trust := .trusted
  createdAt := "2026-01-01T00:00:00.000Z"
  updatedAt := "2026-01-01T00:00:00.000Z"
  version := 1
  provenance := { sourceType := .manual }

/-- The note's migration, with a mapping for its project. -/
def teamInput (scopes : List EntityMapping) : PlanInput where
  source := [teamNote]
  sourceSchemaVersion := 3
  organizationMappings := [⟨"legacy-root", "org-a"⟩]
  entityMappings := { projects := [⟨"p-old", "p-new"⟩], scopes }
  createdAt := some "2026-02-01T00:00:00.000Z"

/-- `"key"` in bytes. -/
def teamKey : List UInt8 := [107, 101, 121]

theorem exists_of_isOk {ε α : Type} {x : Except ε α} (h : x.isOk = true) : ∃ a, x = .ok a := by
  cases x with
  | error e => cases h
  | ok a => exact ⟨a, rfl⟩

theorem plan_faithful_iff_note : ∃ plan, planTenantMigration
      (teamPlatform "PDhMuG3eqIBvmZiuhH2gao7yNoYQVbiVRCOjSQHXbFQ") noIssues (teamInput []) teamKey "" =
        .ok plan ∧
    Faithful (teamPlatform "PDhMuG3eqIBvmZiuhH2gao7yNoYQVbiVRCOjSQHXbFQ") (teamInput []) plan := by
  obtain ⟨plan, hplan⟩ := exists_of_isOk (x := planTenantMigration
    (teamPlatform "PDhMuG3eqIBvmZiuhH2gao7yNoYQVbiVRCOjSQHXbFQ") noIssues (teamInput []) teamKey "")
    (by decide)
  exact ⟨plan, hplan, (plan_faithful_iff hplan).mpr ⟨by simp [KeepsScopes, teamInput],
    by simp [StaysInside, teamInput]⟩⟩

/-- The manifest maps the note's scope, and the plan does not. -/
theorem scope_is_kept : ∃ plan, planTenantMigration
      (teamPlatform "dczODG_gHVS3l8pshMC9z9yXGJ-YBUVNKM12LdimjOE") noIssues
      (teamInput [⟨"team-old", "team-new"⟩]) teamKey "" = .ok plan ∧
    ¬ Faithful (teamPlatform "dczODG_gHVS3l8pshMC9z9yXGJ-YBUVNKM12LdimjOE")
      (teamInput [⟨"team-old", "team-new"⟩]) plan := by
  obtain ⟨plan, hplan⟩ := exists_of_isOk (x := planTenantMigration
    (teamPlatform "dczODG_gHVS3l8pshMC9z9yXGJ-YBUVNKM12LdimjOE") noIssues
    (teamInput [⟨"team-old", "team-new"⟩]) teamKey "") (by decide)
  refine ⟨plan, hplan, fun hfaithful => ?_⟩
  obtain ⟨r, hr, hsource⟩ := (isPlan hplan).record_of_source (List.mem_singleton.mpr rfl)
  have hscope := ((isPlan hplan).mapped_iff hr).mp (hfaithful.mapped r hr) ⟨"team-old", "team-new"⟩
    (List.mem_singleton.mpr rfl) (by rw [hsource]; rfl)
  rw [hsource] at hscope
  exact absurd hscope (by decide)

end Remembra.TenantMigration
