import Remembra.TenantMigration.Mapped

/-! Preflight and application of a plan. What a plan is checked for is the signature of its manifest, the
    checksum of each source, the identity of each destination and its organization. The destination
    objects themselves are not signed, and they are what is written: a plan is held to its signature
    exactly where each destination still is, its organization aside, what the mappings make of its
    source. -/

namespace Remembra.TenantMigration
open Store (JsNum Memory truthy)
open Service (except_bind_eq_ok)
open Prog

/-! ### Preflight -/

/-- A filter as the host gives it. -/
structure TenantFilter where
  organizationId : String
  projectId : Option String := none
  userId : Option String := none
  agentId : Option String := none
  organizationWide : Option Bool := none

/-- A dimension that the filter names is the memory's; one that it does not name is none of it. -/
def matchesDimension (filter value : Option String) : Bool :=
  match truthy filter with
  | some id => value = some id
  | none => value = none

def memoryBelongsToTenant (memory : Memory) (filter : TenantFilter) : Bool :=
  memory.tenantId = some filter.organizationId &&
    (filter.organizationWide = some true ||
      (matchesDimension filter.projectId memory.projectId &&
        matchesDimension filter.userId memory.userId &&
        matchesDimension filter.agentId memory.agentId))

def filterFor (memory : Memory) : TenantFilter where
  organizationId := memory.tenantId.getD ""
  projectId := truthy memory.projectId
  userId := truthy memory.userId
  agentId := truthy memory.agentId

/-- What `seen` holds of a destination. -/
def identity (destination : Memory) : String :=
  Delimited.join ':' (destination.tenantId.getD "undefined") destination.id

section Preflight
variable (P : Platform) (I : Issues)

/-- The loop over the records. -/
def checkRecords (manifestRecords : Table ManifestRecord.id) (filter : Option TenantFilter) :
    List DestinationRecord → List String → Except RemembraError Unit
  | [], _ => .ok ()
  | r :: rest, seen =>
    match manifestRecords.get r.source.id with
    | none => .error (invalid s!"source checksum mismatch for {r.source.id}")
    | some described =>
      if sha256 P (memoryValue r.source) ≠ described.sha256 then
        .error (invalid s!"source checksum mismatch for {r.source.id}")
      else if identity r.destination ∈ seen then
        .error (invalid s!"duplicate destination identity {identity r.destination}")
      else if r.destination.tenantId ≠ some described.organizationId then
        .error (invalid s!"destination organization mismatch for {r.source.id}")
      else if filter.any fun filter => !memoryBelongsToTenant r.destination filter then
        .error (invalid
          s!"destination dimensions are outside the trusted tenant scope for {r.source.id}")
      else checkRecords manifestRecords filter rest (seen ++ [identity r.destination])

def preflightTenantMigration (plan : TenantMigrationPlan) (tenantCapable : Bool) (key : List UInt8)
    (destinationFilter : Option TenantFilter) : Except RemembraError TenantMigrationManifest := do
  let manifest ← verifyTenantMigrationManifest P I plan.manifest key
  if !tenantCapable then
    .error ⟨.serviceUnavailable, "tenant migration requires a tenant-capable destination backend"⟩
  if manifest.records.length ≠ plan.records.length then
    .error (invalid "plan record count does not match manifest")
  checkRecords P (.ofEntries manifest.records) destinationFilter plan.records []
  return manifest

/-! ### Application -/

structure Progress where
  completed : ℕ
  total : ℕ
  imported : ℕ
  skipped : ℕ
  id : String

/-- What the application asks of the destination and of the host. -/
inductive MigrationAsk where
  | importMemory (memory : Memory) (filter : TenantFilter)
  | onProgress (progress : Progress)

/-- Either may throw. -/
abbrev MigrationAnswer : MigrationAsk → Type
  | .importMemory _ _ => Except RemembraError Bool
  | .onProgress _ => Except RemembraError Unit

abbrev MigrationProg := Prog MigrationAsk MigrationAnswer RemembraError

structure ApplyOptions where
  reportsProgress : Bool := false
  startAt : JsNum := .finite 0
  destinationFilter : Option TenantFilter := none

structure ApplyResult where
  imported : ℕ := 0
  skipped : ℕ := 0

/-- A natural number, at most the number of records. -/
def startOf (startAt : JsNum) (records : ℕ) : Except RemembraError ℕ :=
  match startAt with
  | .finite q =>
    if q.isInt && 0 ≤ q then .ok (min q.num.toNat records)
    else .error (invalid "startAt must be a non-negative integer")
  | _ => .error (invalid "startAt must be a non-negative integer")

/-- One round of the loop. -/
def importRecord (manifest : TenantMigrationManifest) (options : ApplyOptions) (result : ApplyResult) :
    DestinationRecord × ℕ → MigrationProg ApplyResult
  | (r, index) => do
    let answer ← request (.importMemory r.destination
      (options.destinationFilter.getD (filterFor r.destination)))
    let isNew ← ofExcept answer
    let result : ApplyResult :=
      if isNew then { result with imported := result.imported + 1 }
      else { result with skipped := result.skipped + 1 }
    if options.reportsProgress then
      let reported ← request (.onProgress ⟨index + 1, manifest.records.length, result.imported,
        result.skipped, r.destination.id⟩)
      ofExcept reported
    return result

def applyTenantMigration (plan : TenantMigrationPlan) (tenantCapable : Bool) (key : List UInt8)
    (options : ApplyOptions) : MigrationProg ApplyResult := do
  let manifest ← ofExcept
    (preflightTenantMigration P I plan tenantCapable key options.destinationFilter)
  let startAt ← ofExcept (startOf options.startAt plan.records.length)
  (plan.records.zipIdx.filter fun (_, index) => startAt ≤ index).foldlM
    (importRecord manifest options) {}

end Preflight

/-! ### What preflight admits -/

variable {P : Platform} {I : Issues} {plan : TenantMigrationPlan} {tenantCapable : Bool}
  {key : List UInt8} {filter : Option TenantFilter}

/-- What the loop asks of one record. -/
structure Checked (P : Platform) (manifestRecords : Table ManifestRecord.id) (filter : Option TenantFilter)
    (r : DestinationRecord) : Prop where
  described : ∃ described, manifestRecords.get r.source.id = some described ∧
    sha256 P (memoryValue r.source) = described.sha256 ∧
      r.destination.tenantId = some described.organizationId
  inside : ∀ f ∈ filter, memoryBelongsToTenant r.destination f = true

theorem checkRecords_cons {manifestRecords : Table ManifestRecord.id} {r : DestinationRecord}
    {rest : List DestinationRecord} {seen : List String} :
    checkRecords P manifestRecords filter (r :: rest) seen = .ok () ↔
      Checked P manifestRecords filter r ∧ identity r.destination ∉ seen ∧
        checkRecords P manifestRecords filter rest (seen ++ [identity r.destination]) = .ok () := by
  rw [checkRecords]
  cases hget : manifestRecords.get r.source.id with
  | none =>
    refine iff_of_false (by simp) ?_
    rintro ⟨⟨⟨described, hdescribed, -⟩, -⟩, -⟩
    rw [hget] at hdescribed
    cases hdescribed
  | some described =>
    have hchecked : Checked P manifestRecords filter r ↔
        sha256 P (memoryValue r.source) = described.sha256 ∧
          r.destination.tenantId = some described.organizationId ∧
            ¬ (filter.any fun f => !memoryBelongsToTenant r.destination f) = true := by
      constructor
      · rintro ⟨⟨described', hdescribed, hsha, horganization⟩, hinside⟩
        obtain rfl := Option.some.inj (hget.symm.trans hdescribed)
        refine ⟨hsha, horganization, fun hany => ?_⟩
        obtain ⟨f, hf, houtside⟩ := (Option.any_eq_true _ _).mp hany
        rw [hinside f hf] at houtside
        cases houtside
      · rintro ⟨hsha, horganization, hnot⟩
        refine ⟨⟨described, hget, hsha, horganization⟩, fun f hf => ?_⟩
        by_contra houtside
        exact hnot ((Option.any_eq_true _ _).mpr ⟨f, hf, by simpa using houtside⟩)
    rw [hchecked]
    dsimp only
    split_ifs <;> simp_all

theorem checkRecords_eq_ok {manifestRecords : Table ManifestRecord.id} {records : List DestinationRecord}
    {seen : List String} : checkRecords P manifestRecords filter records seen = .ok () ↔
      (∀ r ∈ records, Checked P manifestRecords filter r) ∧
        (records.map fun r => identity r.destination).Nodup ∧
          ∀ r ∈ records, identity r.destination ∉ seen := by
  induction records generalizing seen with
  | nil => simp [checkRecords]
  | cons r records ih =>
    rw [checkRecords_cons, ih, List.forall_mem_cons, List.map_cons, List.nodup_cons,
      List.forall_mem_cons]
    simp only [List.mem_append, List.mem_singleton, not_or, List.mem_map, not_exists, not_and]
    constructor
    · rintro ⟨hr, hnew, hrest, hnodup, hseen⟩
      exact ⟨⟨hr, hrest⟩, ⟨fun r' hr' => (hseen r' hr').2, hnodup⟩, hnew, fun r' hr' => (hseen r' hr').1⟩
    · rintro ⟨⟨hr, hrest⟩, ⟨hother, hnodup⟩, hnew, hseen⟩
      exact ⟨hr, hnew, hrest, hnodup, fun r' hr' => ⟨hseen r' hr', hother r' hr'⟩⟩

/-- What is verified is the manifest as it stands. -/
theorem verifyTenantMigrationManifest_eq_ok {value manifest : TenantMigrationManifest} :
    verifyTenantMigrationManifest P I value key = .ok manifest ↔ value = manifest ∧
      acceptsBody value.toManifestBody = true ∧ acceptsSignature value.signature = true ∧
        ∃ expected, sign P value.toManifestBody key = .ok expected ∧
          fromBase64url value.signature.value = fromBase64url expected.value := by
  have hshape : acceptsBody value.toManifestBody = true → acceptsShape value.toManifestBody = true := by
    intro h
    simp only [acceptsBody, Bool.and_eq_true] at h
    tauto
  have hsigned : ∀ expected, sign P value.toManifestBody key = .ok expected → key.length ≠ 0 := by
    intro expected h hempty
    rw [sign, if_pos hempty] at h
    cases h
  rw [verifyTenantMigrationManifest]
  constructor
  · intro h
    dsimp only at h
    split at h
    · cases h
    rename_i henvelope
    split at h
    · cases h
    rename_i hbody
    split at h
    · cases h
    obtain ⟨expected, hexpected, h⟩ := except_bind_eq_ok.mp h
    split at h
    · cases h
    rename_i hequal
    simp only [Bool.not_eq_true', Bool.not_eq_false, Bool.and_eq_true] at henvelope hbody
    exact ⟨Except.ok.inj h, hbody, henvelope.2, expected, hexpected, not_not.mp hequal⟩
  · rintro ⟨rfl, hbody, hsignature, expected, hexpected, hequal⟩
    simp only [hbody, hshape hbody, hsignature, hsigned expected hexpected, Bool.and_true, Bool.not_true,
      Bool.false_eq_true, if_false]
    rw [hexpected]
    simp only [Bind.bind, Except.bind, hequal, ne_eq, not_true_eq_false, if_false]
    rfl

/-- What preflight asks of a plan. -/
theorem preflight_eq_ok {manifest : TenantMigrationManifest} :
    preflightTenantMigration P I plan tenantCapable key filter = .ok manifest ↔
      verifyTenantMigrationManifest P I plan.manifest key = .ok manifest ∧ tenantCapable = true ∧
        manifest.records.length = plan.records.length ∧
          checkRecords P (.ofEntries manifest.records) filter plan.records [] = .ok () := by
  rw [preflightTenantMigration, except_bind_eq_ok]
  constructor
  · rintro ⟨verified, hverified, h⟩
    cases tenantCapable with
    | false => cases h
    | true =>
      simp only [Bool.not_true, Bool.false_eq_true, if_false] at h
      split at h
      · cases h
      · rename_i hlength
        obtain ⟨_, hchecked, h⟩ := except_bind_eq_ok.mp h
        obtain rfl := Except.ok.inj h
        exact ⟨hverified, rfl, not_not.mp hlength, hchecked⟩
  · rintro ⟨hverified, rfl, hlength, hchecked⟩
    refine ⟨manifest, hverified, ?_⟩
    simp only [Bool.not_true, Bool.false_eq_true, if_false, hlength, ne_eq, not_true_eq_false, hchecked]
    rfl

/-! ### What was signed -/

/-- What a manifest can say of a record of a plan. -/
def described (P : Platform) (r : DestinationRecord) : Option String × String × String :=
  (r.destination.tenantId, r.source.id, sha256 P (memoryValue r.source))

/-- The derivation gives the destination for a source that the manifest describes. -/
def Derived (P : Platform) (manifest : TenantMigrationManifest) (source destination : Memory) : Prop :=
  ∃ described ∈ manifest.records, source.id = described.id ∧
    sha256 P (memoryValue source) = described.sha256 ∧
      destinationFor manifest.entityMappings manifest.aclMappings described.organizationId source =
        .ok destination

/-- What is written is derived from what was signed. -/
def WritesDerived (P : Platform) (manifest : TenantMigrationManifest) : MigrationAsk → Prop
  | .importMemory memory _ => ∃ source, Derived P manifest source memory
  | .onProgress _ => True

/-- The plan holds what was signed and nothing else. -/
structure AsSigned (P : Platform) (plan : TenantMigrationPlan) : Prop where
  /-- Each record of the manifest is there exactly once. -/
  exactly : (plan.records.map (described P)).Perm
    (plan.manifest.records.map fun d => (some d.organizationId, d.id, d.sha256))
  derived : ∀ r ∈ plan.records, Derived P plan.manifest r.source r.destination
  written : ∀ I tenantCapable key options,
    (applyTenantMigration P I plan tenantCapable key options).Only (WritesDerived P plan.manifest)

/-- Each destination is, its organization aside, what the mappings make of its source. -/
def Untouched (plan : TenantMigrationPlan) : Prop :=
  ∀ r ∈ plan.records, ∃ organizationId,
    destinationFor plan.manifest.entityMappings plan.manifest.aclMappings organizationId r.source =
      .ok { r.destination with tenantId := some organizationId }

theorem destinationFor_organization {entityMappings : EntityMappings} {aclMappings : List AclMapping}
    {organizationId : String} {source destination : Memory}
    (h : destinationFor entityMappings aclMappings organizationId source = .ok destination)
    (organizationId' : String) : destinationFor entityMappings aclMappings organizationId' source =
      .ok { destination with tenantId := some organizationId' } := by
  obtain ⟨projectId, hproject, h⟩ := except_bind_eq_ok.mp h
  obtain ⟨userId, huser, h⟩ := except_bind_eq_ok.mp h
  obtain ⟨agentId, hagent, h⟩ := except_bind_eq_ok.mp h
  obtain rfl := Except.ok.inj h
  rw [destinationFor, hproject, huser, hagent]
  rfl

theorem destinationFor_fixed {entityMappings : EntityMappings} {aclMappings : List AclMapping}
    {organizationId : String} {source destination : Memory}
    (h : destinationFor entityMappings aclMappings organizationId source = .ok destination) :
    destination.id = source.id ∧ destination.content = source.content := by
  obtain ⟨projectId, hproject, h⟩ := except_bind_eq_ok.mp h
  obtain ⟨userId, huser, h⟩ := except_bind_eq_ok.mp h
  obtain ⟨agentId, hagent, h⟩ := except_bind_eq_ok.mp h
  obtain rfl := Except.ok.inj h
  exact ⟨rfl, rfl⟩

/-- What is checked of the records of an admitted plan. -/
theorem checked_of_preflight {manifest : TenantMigrationManifest}
    (h : preflightTenantMigration P I plan tenantCapable key filter = .ok manifest) :
    plan.manifest = manifest ∧ manifest.records.length = plan.records.length ∧
      (∀ r ∈ plan.records, Checked P (.ofEntries manifest.records) filter r) ∧
        (plan.records.map fun r => identity r.destination).Nodup := by
  obtain ⟨hverified, -, hlength, hchecked⟩ := preflight_eq_ok.mp h
  obtain ⟨hsame, -⟩ := verifyTenantMigrationManifest_eq_ok.mp hverified
  obtain ⟨hall, hnodup, -⟩ := checkRecords_eq_ok.mp hchecked
  exact ⟨hsame, hlength, hall, hnodup⟩

/-- A destination that is untouched is derived: its organization is checked. -/
theorem derived_of_untouched {r : DestinationRecord}
    (hchecked : Checked P (.ofEntries plan.manifest.records) filter r)
    (huntouched : ∃ organizationId, destinationFor plan.manifest.entityMappings plan.manifest.aclMappings
      organizationId r.source = .ok { r.destination with tenantId := some organizationId }) :
    Derived P plan.manifest r.source r.destination := by
  obtain ⟨d, hget, hsha, horganization⟩ := hchecked.described
  obtain ⟨hmem, hid⟩ := Table.mem_of_get_ofEntries hget
  obtain ⟨organizationId, hdestination⟩ := huntouched
  refine ⟨d, hmem, hid.symm, hsha, ?_⟩
  have hderived := destinationFor_organization hdestination d.organizationId
  rwa [← horganization] at hderived

/-- Distinct identities of untouched destinations are distinct sources. -/
theorem distinct_sources (hchecked : ∀ r ∈ plan.records, Checked P (.ofEntries plan.manifest.records) filter r)
    (hnodup : (plan.records.map fun r => identity r.destination).Nodup) (huntouched : Untouched plan) :
    (plan.records.map fun r => r.source.id).Nodup := by
  have hidentity : (plan.records.map fun r => identity r.destination) =
      (plan.records.map fun r => r.source.id).map fun id => Delimited.join ':'
        ((((Table.ofEntries plan.manifest.records : Table ManifestRecord.id).get id).map
          ManifestRecord.organizationId).getD "undefined") id := by
    rw [List.map_map]
    refine List.map_congr_left fun r hr => ?_
    obtain ⟨d, hget, -, horganization⟩ := (hchecked r hr).described
    obtain ⟨organizationId, hdestination⟩ := huntouched r hr
    have hid : r.destination.id = r.source.id := (destinationFor_fixed hdestination).1
    rw [Function.comp_apply, hget, identity, horganization, hid]
    rfl
  rw [hidentity] at hnodup
  exact hnodup.of_map _

/-- As many records as there are in the manifest, no two of one source: all of them. -/
theorem exactly_of_untouched (hlength : plan.manifest.records.length = plan.records.length)
    (hchecked : ∀ r ∈ plan.records, Checked P (.ofEntries plan.manifest.records) filter r)
    (hnodup : (plan.records.map fun r => identity r.destination).Nodup) (huntouched : Untouched plan) :
    (plan.records.map (described P)).Perm
      (plan.manifest.records.map fun d => (some d.organizationId, d.id, d.sha256)) := by
  have hdistinct : (plan.records.map (described P)).Nodup := by
    have hids := distinct_sources hchecked hnodup huntouched
    have hmap : (plan.records.map fun r => r.source.id) =
        (plan.records.map (described P)).map fun t => t.2.1 := by
      rw [List.map_map]
      rfl
    rw [hmap] at hids
    exact hids.of_map _
  have hsub : plan.records.map (described P) ⊆
      plan.manifest.records.map fun d => (some d.organizationId, d.id, d.sha256) := by
    intro t ht
    obtain ⟨r, hr, rfl⟩ := List.mem_map.mp ht
    obtain ⟨d, hget, hsha, horganization⟩ := (hchecked r hr).described
    obtain ⟨hmem, hid⟩ := Table.mem_of_get_ofEntries hget
    refine List.mem_map.mpr ⟨d, hmem, ?_⟩
    rw [described, horganization, hid, hsha]
  refine (hdistinct.subperm hsub).perm_of_length_le ?_
  rw [List.length_map, List.length_map, hlength]

/-- The application writes destinations of the plan only. -/
theorem written_of_derived (h : ∀ r ∈ plan.records, Derived P plan.manifest r.source r.destination)
    (I : Issues) (tenantCapable : Bool) (key : List UInt8) (options : ApplyOptions) :
    (applyTenantMigration P I plan tenantCapable key options).Only (WritesDerived P plan.manifest) := by
  refine only_bind (only_ofExcept _) fun manifest => only_bind (only_ofExcept _) fun startAt => ?_
  refine only_foldlM_of_mem (fun result row hrow => ?_) _
  obtain ⟨r, index⟩ := row
  have hr : r ∈ plan.records := by
    obtain ⟨hmem, -⟩ := List.mem_filter.mp hrow
    exact List.mem_of_getElem? (List.mem_zipIdx_iff_getElem?.mp hmem)
  refine only_bind (only_request.mpr ⟨r.source, h r hr⟩) fun answer =>
    only_bind (only_ofExcept _) fun isNew => ?_
  dsimp only
  split
  · exact only_bind (only_request.mpr trivial) fun reported =>
      only_bind (only_ofExcept _) fun _ => only_pure _
  · exact only_pure _

/-- An admitted plan is what was signed exactly where its destinations are untouched. -/
theorem as_signed_iff {manifest : TenantMigrationManifest}
    (h : preflightTenantMigration P I plan tenantCapable key filter = .ok manifest) :
    AsSigned P plan ↔ Untouched plan := by
  obtain ⟨rfl, hlength, hchecked, hnodup⟩ := checked_of_preflight h
  constructor
  · intro hsigned r hr
    obtain ⟨d, -, -, -, hdestination⟩ := hsigned.derived r hr
    exact ⟨d.organizationId, destinationFor_organization hdestination _⟩
  · intro huntouched
    have hderived : ∀ r ∈ plan.records, Derived P plan.manifest r.source r.destination := fun r hr =>
      derived_of_untouched (hchecked r hr) (huntouched r hr)
    exact ⟨exactly_of_untouched hlength hchecked hnodup huntouched, hderived, written_of_derived hderived⟩

/-! ### Plans as they are made -/

/-- What is planned is admitted and untouched. The digest of `createHmac` is a text of the schema. -/
theorem preflight_planned {input : PlanInput} {now : String}
    (hhmac : ∀ text, acceptsSignature ⟨"HMAC-SHA256", P.hmac key text⟩ = true)
    (h : planTenantMigration P I input key now = .ok plan) :
    preflightTenantMigration P I plan true key none = .ok plan.manifest ∧ Untouched plan := by
  have hplan := isPlan h
  have hids : (plan.manifest.records.map ManifestRecord.id).Nodup := by
    have hdistinct := hplan.ids_distinct
    rwa [hplan.manifestRecords, List.map_map]
  have hkeys : (plan.manifest.records.map ManifestRecord.key).Nodup := by
    have haccepted := hplan.accepted
    simp only [acceptsBody, distinct, Bool.and_eq_true, decide_eq_true_eq] at haccepted
    exact haccepted.2
  have hrecord : ∀ r ∈ plan.records, r.destination.tenantId = some (r.manifestRecord P).organizationId ∧
      r.destination.id = r.source.id := by
    intro r hr
    obtain ⟨-, -, mapping, -, -, hmoved⟩ := hplan.record hr
    refine ⟨?_, by rw [hmoved.rest]⟩
    rw [DestinationRecord.manifestRecord, hmoved.organization, Option.getD_some]
  refine ⟨preflight_eq_ok.mpr ⟨?_, rfl, ?_, checkRecords_eq_ok.mpr ⟨fun r hr => ⟨?_, by simp⟩, ?_, by simp⟩⟩, ?_⟩
  · refine verifyTenantMigrationManifest_eq_ok.mpr ⟨rfl, hplan.accepted, ?_, _, hplan.signed, rfl⟩
    have hsigned := hplan.signed
    rw [sign] at hsigned
    split at hsigned
    · cases hsigned
    · exact Except.ok.inj hsigned ▸ hhmac _
  · rw [hplan.manifestRecords, List.length_map]
  · have hmem : r.manifestRecord P ∈ plan.manifest.records := by
      rw [hplan.manifestRecords]
      exact List.mem_map_of_mem hr
    exact ⟨_, Table.get_ofEntries_of_nodup hids hmem, rfl, (hrecord r hr).1⟩
  · rw [hplan.manifestRecords, List.map_map] at hkeys
    refine (List.map_congr_left fun r hr => ?_) ▸ hkeys
    obtain ⟨horganization, hid⟩ := hrecord r hr
    rw [identity, horganization, hid]
    rfl
  · intro r hr
    obtain ⟨source, -, rfl, ⟨mapping, -, -, hdestination⟩, -⟩ := (Service.forall₂_mem hplan.records).2 r hr
    rw [← hplan.entityMappings, ← hplan.aclMappings] at hdestination
    exact ⟨mapping.destination, destinationFor_organization hdestination _⟩

/-! ### The note again -/

def noteManifest : TenantMigrationManifest where
  sourceSchemaVersion := 3
  createdAt := "2026-02-01T00:00:00.000Z"
  organizationMappings := [⟨"legacy-root", "org-a"⟩]
  entityMappings := { projects := [⟨"p-old", "p-new"⟩] }
  aclMappings := []
  counts := ⟨1, 0, 0, 0⟩
  records :=
    [⟨"org-a", "aaaaaaaa", "627e18e0bb92173f2b20766a62f6e9aeabdf8a39591e363a08dbe424e8e1804b"⟩]
  references := []
  signature := ⟨"HMAC-SHA256", "PDhMuG3eqIBvmZiuhH2gao7yNoYQVbiVRCOjSQHXbFQ"⟩

theorem preflight_planned_note : ∃ plan, preflightTenantMigration
      (teamPlatform noteManifest.signature.value) noIssues plan true teamKey none = .ok plan.manifest ∧
    Untouched plan := by
  obtain ⟨plan, hplan⟩ := exists_of_isOk (x := planTenantMigration
    (teamPlatform noteManifest.signature.value) noIssues (teamInput []) teamKey "") (by decide)
  have hhmac : acceptsSignature noteManifest.signature = true := by decide
  exact ⟨plan, preflight_planned (fun _ => hhmac) hplan⟩

/-- The plan of the note, with this content for its destination. -/
def notePlan (content : String) : TenantMigrationPlan where
  manifest := noteManifest
  records := [⟨teamNote, { teamNote with
    content
    tenantId := some "org-a"
    projectId := some "p-new"
    owner := some .global
    access := some .global }⟩]

theorem as_signed_note : AsSigned (teamPlatform "PDhMuG3eqIBvmZiuhH2gao7yNoYQVbiVRCOjSQHXbFQ")
    (notePlan "a note") := by
  obtain ⟨manifest, h⟩ := exists_of_isOk (x := preflightTenantMigration
    (teamPlatform "PDhMuG3eqIBvmZiuhH2gao7yNoYQVbiVRCOjSQHXbFQ") noIssues (notePlan "a note") true teamKey
    none) (by decide)
  refine (as_signed_iff h).mpr fun r hr => ⟨"org-a", ?_⟩
  rw [List.mem_singleton.mp hr]
  rfl

/-- With another content for the destination the plan is admitted as well. -/
theorem other_content_admitted : ∃ manifest, preflightTenantMigration
      (teamPlatform "PDhMuG3eqIBvmZiuhH2gao7yNoYQVbiVRCOjSQHXbFQ") noIssues (notePlan "another note") true
      teamKey none = .ok manifest ∧
    ¬ AsSigned (teamPlatform "PDhMuG3eqIBvmZiuhH2gao7yNoYQVbiVRCOjSQHXbFQ") (notePlan "another note") := by
  obtain ⟨manifest, h⟩ := exists_of_isOk (x := preflightTenantMigration
    (teamPlatform "PDhMuG3eqIBvmZiuhH2gao7yNoYQVbiVRCOjSQHXbFQ") noIssues (notePlan "another note") true
    teamKey none) (by decide)
  refine ⟨manifest, h, fun hsigned => ?_⟩
  obtain ⟨d, -, -, -, hdestination⟩ := hsigned.derived _ (List.mem_singleton.mpr rfl)
  have hcontent : "another note" = "a note" := (destinationFor_fixed hdestination).2
  exact absurd hcontent (by decide)

end Remembra.TenantMigration
