import Remembra.TenantMigration.Manifest

/-! Planning a tenant migration. A source memory goes to the organization of its namespace, its project,
    user and agent by the entity mappings, its owner and access by the ACL mappings; the references of
    all memories are listed. The scope mappings are recorded in the manifest and used nowhere, and a
    reference has to lead to a source memory, of whatever organization. -/

namespace Remembra.TenantMigration
open Store (Memory MemoryOwner MemoryAccess Vocabulary truthy)
open Service (metaTexts except_bind_eq_ok forall₂_mem)

/-- What is not given has the default of the source. -/
structure PlanInput where
  source : List Memory
  sourceSchemaVersion : ℤ
  organizationMappings : List OrganizationMapping
  entityMappings : EntityMappings := {}
  aclMappings : List AclMapping := []
  sourceNamespace : Memory → String := fun _ => "legacy-root"
  historyCount : ℤ := 0
  auditCount : ℤ := 0
  createdAt : Option String := none

structure DestinationRecord where
  source : Memory
  destination : Memory

structure TenantMigrationPlan where
  manifest : TenantMigrationManifest
  records : List DestinationRecord

def invalid (message : String) : RemembraError := ⟨.invalidInput, "tenant migration: " ++ message⟩

/-! ### A destination -/

def mappingValue (mappings : List EntityMapping) (source : Option String) (label : String) :
    Except RemembraError (Option String) :=
  match source with
  | none => .ok none
  | some source =>
    match mappings.find? fun mapping => mapping.source = source with
    | none => .error (invalid s!"unmapped {label} {source}")
    | some found => .ok (some found.destination)

def aclKey (owner : MemoryOwner) (access : MemoryAccess) : String :=
  Delimited.join ':' (Vocabulary.text owner) (Vocabulary.text access)

def AclMapping.key (mapping : AclMapping) : String := aclKey mapping.sourceOwner mapping.sourceAccess

/-- Of two mappings of one pair the later one counts. -/
def aclPairs (mappings : List AclMapping) : Table AclMapping.key := .ofEntries mappings

/-- What a source memory becomes. -/
def destinationFor (entityMappings : EntityMappings) (aclMappings : List AclMapping)
    (organizationId : String) (source : Memory) : Except RemembraError Memory := do
  let projectId ← mappingValue entityMappings.projects source.projectId "project"
  let userId ← mappingValue entityMappings.users source.userId "user"
  let agentId ← mappingValue entityMappings.agents source.agentId "agent"
  let owner := source.owner.getD .global
  let access := source.access.getD .global
  let acl := (aclPairs aclMappings).get (aclKey owner access)
  return { source with
    tenantId := some organizationId
    projectId := (truthy projectId).or source.projectId
    userId := (truthy userId).or source.userId
    agentId := (truthy agentId).or source.agentId
    owner := some ((acl.map AclMapping.destinationOwner).getD owner)
    access := some ((acl.map AclMapping.destinationAccess).getD access) }

/-! ### The plan -/

/-- The references of a memory: the id that each leads to, and its kind. -/
def referencesOf (m : Memory) : List (String × String) :=
  (m.relations.getD []).map (fun r => (r.id, Vocabulary.text r.kind)) ++
    (truthy m.supersededBy).toList.map (fun id => (id, "supersedes")) ++
    (metaTexts m.metaFields "compressedFrom").map fun id => (id, "compressedFrom")

section Plan
variable (P : Platform) (I : Issues)

def addReference (sources : Table Memory.id) (organizationId : String) (source : Memory) :
    String × String → Except RemembraError ReferenceRecord
  | (targetId, kind) =>
    if sources.has targetId then
      .ok ⟨organizationId, source.id, targetId, kind, sha256 P
        (.map [("sourceId", .str source.id), ("targetId", .str targetId), ("kind", .str kind)])⟩
    else .error (invalid s!"reference {source.id} -> {targetId} is outside the source set")

/-- One round of the loop over the memories. -/
def planRecord (input : PlanInput) (sources : Table Memory.id)
    (organizationFor : Table OrganizationMapping.sourceNamespace) (source : Memory) :
    Except RemembraError (DestinationRecord × List ReferenceRecord) :=
  let sourceNamespace := input.sourceNamespace source
  match truthy ((organizationFor.get sourceNamespace).map OrganizationMapping.destination) with
  | none => .error (invalid s!"unmapped source namespace {sourceNamespace}")
  | some organizationId => do
    let destination ← destinationFor input.entityMappings input.aclMappings organizationId source
    let references ← (referencesOf source).mapM (addReference P sources organizationId source)
    return (⟨source, destination⟩, references)

def DestinationRecord.manifestRecord (r : DestinationRecord) : ManifestRecord :=
  ⟨r.destination.tenantId.getD "", r.source.id, sha256 P (memoryValue r.source)⟩

def planTenantMigration (input : PlanInput) (key : List UInt8) (now : String) :
    Except RemembraError TenantMigrationPlan := do
  if input.source.length = 0 then .error (invalid "source is empty")
  let sources ← Table.load (fun _ => .ok ()) (fun m => invalid s!"duplicate source memory id {m.id}")
    (fun m => if (truthy m.tenantId).isSome then
        .error (invalid s!"source memory {m.id} already has tenant metadata")
      else .ok ())
    input.source (.empty : Table Memory.id)
  let organizationFor ← Table.load (fun _ => .ok ())
    (fun mapping => invalid s!"duplicate source namespace {mapping.sourceNamespace}") (fun _ => .ok ())
    input.organizationMappings (.empty : Table OrganizationMapping.sourceNamespace)
  let planned ← input.source.mapM (planRecord P input sources organizationFor)
  let records := planned.map (·.1)
  let references := planned.flatMap (·.2)
  let manifest ← createTenantMigrationManifest P I
    { sourceSchemaVersion := input.sourceSchemaVersion
      createdAt := input.createdAt.getD now
      organizationMappings := input.organizationMappings
      entityMappings := input.entityMappings
      aclMappings := input.aclMappings
      counts := ⟨records.length, references.length, input.historyCount, input.auditCount⟩
      records := records.map (DestinationRecord.manifestRecord P)
      references } key
  return ⟨manifest, records⟩

end Plan

/-! ### What a plan is -/

theorem mapM_eq_ok {ε α β : Type} {f : α → Except ε β} {xs : List α} {ys : List β} :
    xs.mapM f = .ok ys ↔ List.Forall₂ (fun x y => f x = .ok y) xs ys := by
  induction xs generalizing ys with
  | nil => simp [pure, Except.pure, eq_comm]
  | cons x xs ih =>
    simp only [List.mapM_cons, except_bind_eq_ok, List.forall₂_cons_left_iff, ih, pure, Except.pure,
      Except.ok.injEq]
    constructor
    · rintro ⟨y, hy, ys', hys, rfl⟩
      exact ⟨y, ys', hy, hys, rfl⟩
    · rintro ⟨y, ys', hy, hys, rfl⟩
      exact ⟨y, hy, ys', hys, rfl⟩

/-- The ids that a memory refers to. -/
def targets (m : Memory) : List String := (referencesOf m).map (·.1)

section Spec
variable {P : Platform} {I : Issues} {input : PlanInput} {key : List UInt8} {now : String}
  {plan : TenantMigrationPlan}

/-- The record that a source memory has in a plan. -/
structure PlannedAs (input : PlanInput) (source : Memory) (r : DestinationRecord) : Prop where
  same : r.source = source
  destination : ∃ mapping ∈ input.organizationMappings,
    mapping.sourceNamespace = input.sourceNamespace source ∧
      destinationFor input.entityMappings input.aclMappings mapping.destination source = .ok r.destination
  references : ∀ id ∈ targets source, ∃ target ∈ input.source, target.id = id

/-- What is known of a plan. -/
structure IsPlan (P : Platform) (key : List UInt8) (input : PlanInput) (plan : TenantMigrationPlan) :
    Prop where
  ids : (input.source.map Memory.id).Nodup
  tenantless : ∀ m ∈ input.source, truthy m.tenantId = none
  records : List.Forall₂ (PlannedAs input) input.source plan.records
  organizationMappings : plan.manifest.organizationMappings = input.organizationMappings
  entityMappings : plan.manifest.entityMappings = input.entityMappings
  aclMappings : plan.manifest.aclMappings = input.aclMappings
  manifestRecords : plan.manifest.records = plan.records.map (DestinationRecord.manifestRecord P)
  accepted : acceptsBody plan.manifest.toManifestBody = true
  signed : sign P plan.manifest.toManifestBody key = .ok plan.manifest.signature

theorem addReference_ok {sources : Table Memory.id} {organizationId : String} {source : Memory}
    {reference : String × String} {r : ReferenceRecord}
    (h : addReference P sources organizationId source reference = .ok r) :
    sources.has reference.1 = true := by
  simp only [addReference] at h
  split at h
  · assumption
  · cases h

theorem plannedAs_of_planRecord {sources : Table Memory.id}
    {organizationFor : Table OrganizationMapping.sourceNamespace} (hsources : sources.rows = input.source)
    (horganizations : organizationFor.rows = input.organizationMappings) {source : Memory}
    {planned : DestinationRecord × List ReferenceRecord}
    (h : planRecord P input sources organizationFor source = .ok planned) :
    PlannedAs input source planned.1 := by
  simp only [planRecord] at h
  split at h
  · cases h
  · rename_i organizationId horganization
    obtain ⟨destination, hdestination, h⟩ := except_bind_eq_ok.mp h
    obtain ⟨references, hreferences, h⟩ := except_bind_eq_ok.mp h
    obtain rfl := Except.ok.inj h
    refine ⟨rfl, ?_, ?_⟩
    · obtain ⟨hmapped, -⟩ := Option.filter_eq_some_iff.mp horganization
      obtain ⟨mapping, hget, rfl⟩ := Option.map_eq_some_iff.mp hmapped
      obtain ⟨hmem, hkey⟩ := Table.get_eq_some.mp hget
      exact ⟨mapping, horganizations ▸ hmem, hkey, hdestination⟩
    · intro id hid
      obtain ⟨reference, href, rfl⟩ := List.mem_map.mp hid
      obtain ⟨r, -, hr⟩ := (forall₂_mem (mapM_eq_ok.mp hreferences)).1 reference href
      obtain ⟨target, htarget, hid⟩ := Table.has_iff.mp (addReference_ok hr)
      exact ⟨target, hsources ▸ htarget, hid⟩

theorem createTenantMigrationManifest_ok {manifestInput : ManifestInput} {manifest : TenantMigrationManifest}
    (h : createTenantMigrationManifest P I manifestInput key = .ok manifest) :
    manifest.toManifestInput = manifestInput ∧ acceptsBody manifest.toManifestBody = true ∧
      sign P manifest.toManifestBody key = .ok manifest.signature := by
  obtain ⟨body, hbody, h⟩ := except_bind_eq_ok.mp h
  obtain ⟨signature, hsign, h⟩ := except_bind_eq_ok.mp h
  obtain rfl := Except.ok.inj h
  simp only [bodyWithDefaults] at hbody
  split at hbody
  · obtain rfl := Except.ok.inj hbody
    exact ⟨rfl, by assumption, hsign⟩
  · cases hbody

/-- The spec lemma. -/
theorem isPlan (h : planTenantMigration P I input key now = .ok plan) : IsPlan P key input plan := by
  rw [planTenantMigration] at h
  split at h
  · cases h
  obtain ⟨sources, hsources, h⟩ := except_bind_eq_ok.mp h
  obtain ⟨organizationFor, horganizations, h⟩ := except_bind_eq_ok.mp h
  obtain ⟨planned, hplanned, h⟩ := except_bind_eq_ok.mp h
  obtain ⟨manifest, hmanifest, h⟩ := except_bind_eq_ok.mp h
  obtain rfl := Except.ok.inj h
  obtain ⟨htenantless, hrows⟩ := Table.load_eq_ok.mp hsources
  obtain ⟨-, horganizationRows⟩ := Table.load_eq_ok.mp horganizations
  change sources.rows = [] ++ input.source at hrows
  change organizationFor.rows = [] ++ input.organizationMappings at horganizationRows
  rw [List.nil_append] at hrows horganizationRows
  obtain ⟨hfields, haccepts, hsigned⟩ := createTenantMigrationManifest_ok hmanifest
  have hplannedAs : List.Forall₂ (fun source planned => PlannedAs input source planned.1) input.source
      planned := (mapM_eq_ok.mp hplanned).imp fun _ _ => plannedAs_of_planRecord hrows horganizationRows
  refine ⟨hrows ▸ sources.nodup, ?_, List.forall₂_map_right_iff.mpr hplannedAs, ?_, ?_, ?_, ?_, haccepts,
    hsigned⟩
  · intro m hm
    have hcheck := (htenantless m hm).2
    split at hcheck
    · cases hcheck
    · rename_i hnone
      exact Option.not_isSome_iff_eq_none.mp hnone
  all_goals
    dsimp only
    rw [hfields]

end Spec

/-! ### What the mappings say -/

/-- What is given has its mapping. -/
def ImageOf (mappings : List EntityMapping) : Option String → Option String → Prop
  | none, image => image = none
  | some value, image => ∃ mapping ∈ mappings, mapping.source = value ∧ image = some mapping.destination

/-- A scope without a mapping stays. -/
def ScopeImage (mappings : List EntityMapping) (scope image : String) : Prop :=
  (∃ mapping ∈ mappings, mapping.source = scope ∧ image = mapping.destination) ∨
    (∀ mapping ∈ mappings, mapping.source ≠ scope) ∧ image = scope

/-- A pair without a mapping stays. -/
def AclImage (mappings : List AclMapping) (owner : MemoryOwner) (access : MemoryAccess)
    (image : Option MemoryOwner × Option MemoryAccess) : Prop :=
  (∃ mapping ∈ mappings, (mapping.sourceOwner = owner ∧ mapping.sourceAccess = access) ∧
    image = (some mapping.destinationOwner, some mapping.destinationAccess)) ∨
  (∀ mapping ∈ mappings, ¬ (mapping.sourceOwner = owner ∧ mapping.sourceAccess = access)) ∧
    image = (some owner, some access)

section Mappings
variable {mappings : List EntityMapping} {source : Option String} {image : Option String} {label : String}

theorem mappingValue_image (h : mappingValue mappings source label = .ok image) :
    ImageOf mappings source image := by
  cases source with
  | none => exact (Except.ok.inj h).symm
  | some value =>
    simp only [mappingValue] at h
    split at h
    · cases h
    · rename_i found hfound
      have hsame := List.find?_some hfound
      exact ⟨found, List.mem_of_find?_eq_some hfound, of_decide_eq_true hsame, (Except.ok.inj h).symm⟩

/-- The identifiers that the schema takes are not empty. -/
theorem truthy_image_or (hmappings : acceptsMappings mappings = true) (h : ImageOf mappings source image) :
    (truthy image).or source = image := by
  cases source with
  | none =>
    obtain rfl : image = none := h
    rfl
  | some value =>
    obtain ⟨mapping, hmem, -, rfl⟩ := h
    simp only [acceptsMappings, acceptsMapping, Bool.and_eq_true, List.all_eq_true] at hmappings
    have hne : mapping.destination ≠ "" := by
      intro hempty
      have hvalid := (hmappings.2 mapping hmem).2
      rw [hempty] at hvalid
      exact absurd hvalid (by decide)
    rw [show truthy (some mapping.destination) = some mapping.destination from
      Option.filter_eq_some_iff.mpr ⟨rfl, decide_eq_true hne⟩, Option.some_or]

theorem aclKey_inj {owner owner' : MemoryOwner} {access access' : MemoryAccess} :
    aclKey owner access = aclKey owner' access' ↔ owner = owner' ∧ access = access' := by
  constructor
  · intro h
    have hnot : ∀ owner : MemoryOwner, ':' ∉ (Vocabulary.text owner).toList := by
      rintro (_ | _) <;> decide
    obtain ⟨howner, haccess⟩ := Delimited.join_inj_first (hnot owner) (hnot owner') h
    exact ⟨Vocabulary.text_inj _ _ howner, Vocabulary.text_inj _ _ haccess⟩
  · rintro ⟨rfl, rfl⟩
    rfl

theorem aclPairs_image (aclMappings : List AclMapping) (owner : MemoryOwner) (access : MemoryAccess) :
    AclImage aclMappings owner access
      (some ((((aclPairs aclMappings).get (aclKey owner access)).map AclMapping.destinationOwner).getD owner),
        some ((((aclPairs aclMappings).get (aclKey owner access)).map
          AclMapping.destinationAccess).getD access)) := by
  cases hget : (aclPairs aclMappings).get (aclKey owner access) with
  | none =>
    refine .inr ⟨fun mapping hmem hpair => ?_, rfl⟩
    exact Table.get_ofEntries_eq_none.mp hget mapping hmem (aclKey_inj.mpr hpair)
  | some mapping =>
    obtain ⟨hmem, hkey⟩ := Table.mem_of_get_ofEntries hget
    exact .inl ⟨mapping, hmem, aclKey_inj.mp hkey, rfl⟩

end Mappings

end Remembra.TenantMigration
