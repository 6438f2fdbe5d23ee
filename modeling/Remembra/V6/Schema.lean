import Remembra.Lib.Json
import Remembra.V6.Context

/-! The boundary between records of V5 and of V6. The classifier takes a version from `schemaVersion` and,
    where there is no number, from `version`, which in a memory of V5 counts its revisions; the parser
    looks at `schemaVersion` alone. The projection to V5 looks at the sensitivity and at nothing else.
    The boundary holds exactly where no revision counter stands at six, and where what is projected is
    active and on no hold (`boundary_holds_iff`). -/

namespace Remembra.V6.Schema
open Store (JsNum Memory MemoryType TrustLevel SensitivityBand SourceType RetentionMode Vocabulary
  isValidTenantId)
open Jobs (utf16Length)
open Js (Value)
open Json (property)
open Service (bandIndex)

/-! ### Records -/

inductive CompatibilityClass where
  | v6 | legacy | incompatible
  deriving DecidableEq

/-- `V6_COMPATIBILITY` -/
def v6Compatibility : List (ℚ × CompatibilityClass) :=
  [(1, .incompatible), (2, .incompatible), (3, .legacy), (4, .legacy), (5, .incompatible), (6, .v6)]

structure V6Memory where
  id : String
  type : MemoryType
  scope : String
  organizationId : String
  projectId : Option String := none
  content : String
  importance : ℤ
  confidence : ℚ
  trust : TrustLevel
  source : Option String := none
  sourceType : Option SourceType := none
  sensitivity : SensitivityBand
  retention : RetentionMode
  expiresAt : Option ℤ := none
  legalHold : Bool
  archivedAt : Option String := none
  deletedAt : Option String := none
  supersededBy : Option String := none
  version : ℤ
  createdAt : String
  updatedAt : String
  lastSeen : Option String := none
  lastValidated : Option String := none
  deriving DecidableEq

inductive LifecycleState where
  | active | expired | archived | superseded | deleted
  deriving DecidableEq

def lifecycleStateOf (record : V6Memory) (now : JsNum) : LifecycleState :=
  if record.deletedAt.isSome then .deleted
  else if record.expiresAt.any fun t => numLe (.finite t) now then .expired
  else if record.supersededBy.isSome then .superseded
  else if record.archivedAt.isSome then .archived
  else .active

/-! ### The classifier -/

structure V5Classification where
  compatibility : CompatibilityClass
  sensitivityKnown : Bool
  requiresClassification : Bool
  sensitivity : Option SensitivityBand := none
  deriving DecidableEq

def numberAt (fields : List (String × Value JsNum)) (key : String) : Option JsNum :=
  match property fields key with
  | some (.num n) => some n
  | _ => none

def versionOf : Value JsNum → Option JsNum
  | .object fields => (numberAt fields "schemaVersion").or (numberAt fields "version")
  | _ => none

def compatibilityOf : Option JsNum → CompatibilityClass
  | some (.finite q) => (v6Compatibility.lookup q).getD .incompatible
  | _ => .incompatible

def classifyV5Record (raw : Value JsNum) : V5Classification :=
  let compatibility := compatibilityOf (versionOf raw)
  if compatibility = .v6 then
    { compatibility := .v6, sensitivityKnown := true, requiresClassification := false }
  else { compatibility, sensitivityKnown := false, requiresClassification := true }

/-! ### The parser -/

/-- What the schema leaves to its library. -/
structure Zod where
  /-- `z.string().datetime({ offset: true })` -/
  datetime : String → Bool
  /-- The issues of a value that is refused. -/
  issues : Value JsNum → String

section Fields

def text (least most : ℕ) : Value JsNum → Option String
  | .str s => if least ≤ utf16Length s ∧ utf16Length s ≤ most then some s else none
  | _ => none

def tenantId : Value JsNum → Option String
  | .str s => if isValidTenantId s then some s else none
  | _ => none

def instant (Z : Zod) : Value JsNum → Option String
  | .str s => if Z.datetime s then some s else none
  | _ => none

def option (ε : Type) [Vocabulary ε] : Value JsNum → Option ε
  | .str s => Vocabulary.ofText s
  | _ => none

/-- `z.number().int()` from `least` on. -/
def integer (least : ℤ) (most : Option ℤ) : Value JsNum → Option ℤ
  | .num (.finite q) => if q.den = 1 ∧ least ≤ q.num ∧ most.all (q.num ≤ ·) then some q.num else none
  | _ => none

def unitNumber : Value JsNum → Option ℚ
  | .num (.finite q) => if 0 ≤ q ∧ q ≤ 1 then some q else none
  | _ => none

def boolean : Value JsNum → Option Bool
  | .bool b => some b
  | _ => none

variable {α : Type} (fields : List (String × Value JsNum)) (key : String)

def required (read : Value JsNum → Option α) : Option α := (property fields key).bind read

/-- `optional()`, which also takes `undefined`. -/
def optional (read : Value JsNum → Option α) : Option (Option α) :=
  match property fields key with
  | none | some .undefined => some none
  | some v => (read v).map some

def orDefault (default : α) (read : Value JsNum → Option α) : Option α :=
  (optional fields key read).map (·.getD default)

end Fields

/-- The keys of `V6MemorySchema`, which is strict. -/
def v6Keys : List String :=
  ["schemaVersion", "id", "type", "scope", "organizationId", "projectId", "content", "importance",
    "confidence", "trust", "source", "sourceType", "sensitivity", "retention", "expiresAt", "legalHold",
    "archivedAt", "deletedAt", "supersededBy", "version", "createdAt", "updatedAt", "lastSeen",
    "lastValidated"]

/-- `V6MemorySchema` -/
def v6MemorySchema (Z : Zod) (fields : List (String × Value JsNum)) : Option V6Memory := do
  guard (fields.all fun field => field.1 ∈ v6Keys)
  guard (property fields "schemaVersion" matches some (.num (.finite 6)))
  let record : V6Memory := {
    id := ← required fields "id" (text 1 256)
    type := ← required fields "type" (option MemoryType)
    scope := ← required fields "scope" (text 1 512)
    organizationId := ← required fields "organizationId" tenantId
    projectId := ← optional fields "projectId" tenantId
    content := ← required fields "content" (text 1 (64 * 1024))
    importance := ← required fields "importance" (integer 1 (some 5))
    confidence := ← required fields "confidence" unitNumber
    trust := ← required fields "trust" (option TrustLevel)
    source := ← optional fields "source" (text 0 1024)
    sourceType := ← optional fields "sourceType" (option SourceType)
    sensitivity := ← orDefault fields "sensitivity" .internal (option SensitivityBand)
    retention := ← orDefault fields "retention" .persistent (option RetentionMode)
    expiresAt := ← optional fields "expiresAt" (integer 1 none)
    legalHold := ← orDefault fields "legalHold" false boolean
    archivedAt := ← optional fields "archivedAt" (instant Z)
    deletedAt := ← optional fields "deletedAt" (instant Z)
    supersededBy := ← optional fields "supersededBy" (text 1 256)
    version := ← required fields "version" (integer 1 none)
    createdAt := ← required fields "createdAt" (instant Z)
    updatedAt := ← required fields "updatedAt" (instant Z)
    lastSeen := ← optional fields "lastSeen" (instant Z)
    lastValidated := ← optional fields "lastValidated" (instant Z) }
  guard (record.supersededBy ≠ some record.id)
  return record

structure Refusal where
  error : String
  quarantine : Bool := false
  deriving DecidableEq

/-- The refusal of a record for its version, before the schema looks at it. -/
def versionRefusal (numText : JsNum → String) : Value JsNum → Option Refusal
  | .object fields =>
    match property fields "schemaVersion" with
    | some (.num version) =>
      if version ≠ .finite 6 then
        some { error := "schema version " ++ numText version ++ " is not supported by this reader (6)" }
      else none
    | _ => some { error := "record has no schemaVersion; it cannot be assumed to be V6" }
  | .array _ => some { error := "record has no schemaVersion; it cannot be assumed to be V6" }
  | _ => some { error := "record is not an object" }

def parseV6Record (numText : JsNum → String) (Z : Zod) (raw : Value JsNum) : Except Refusal V6Memory :=
  match versionRefusal numText raw, raw with
  | none, .object fields =>
    match v6MemorySchema Z fields with
    | some record => .ok record
    | none => .error { error := Z.issues raw }
  | none, raw => .error { error := Z.issues raw }
  | some refusal, _ => .error refusal

/-! ### The projection -/

structure V5ProjectedMemory where
  version : ℤ
  id : String
  type : MemoryType
  scope : String
  organizationId : String
  projectId : Option String := none
  content : String
  importance : ℤ
  confidence : ℚ
  trust : TrustLevel
  source : Option String := none
  retention : RetentionMode
  createdAt : String
  updatedAt : String
  deriving DecidableEq

def v6ToV5Projection (record : V6Memory) : Except String V5ProjectedMemory :=
  if bandIndex record.sensitivity > bandIndex .internal then
    .error ("sensitivity \"" ++ Vocabulary.text record.sensitivity ++
      "\" has no V5 representation; refusing to project rather than dropping the classification")
  else
    .ok {
      version := record.version
      id := record.id
      type := record.type
      scope := record.scope
      organizationId := record.organizationId
      projectId := record.projectId
      content := record.content
      importance := record.importance
      confidence := record.confidence
      trust := record.trust
      source := record.source
      retention := record.retention
      createdAt := record.createdAt
      updatedAt := record.updatedAt }

/-! ### What the boundary holds -/

/-- The record says itself that it is one of V6. -/
def CarriesSix (raw : Value JsNum) : Prop :=
  ∃ fields, raw = .object fields ∧ property fields "schemaVersion" = some (.num (.finite 6))

/-- The record has no number for its schema, and its revision counter stands at six. -/
def CountsSix (raw : Value JsNum) : Prop :=
  ∃ fields, raw = .object fields ∧ numberAt fields "schemaVersion" = none ∧
    property fields "version" = some (.num (.finite 6))

/-- The properties are those of an object that a V5 store returns for the memory. -/
structure IsV5Object (m : Memory) (fields : List (String × Value JsNum)) : Prop where
  schemaVersion : property fields "schemaVersion" = none
  version : property fields "version" = some (.num (.finite m.version))

/-- None of the markers that take a record out of ordinary use is on it. -/
structure Ordinary (record : V6Memory) (now : JsNum) : Prop where
  deletedAt : record.deletedAt = none
  expiresAt : ∀ t ∈ record.expiresAt, numLe (.finite t) now = false
  supersededBy : record.supersededBy = none
  archivedAt : record.archivedAt = none
  legalHold : record.legalHold = false

section Boundary
variable {numText : JsNum → String} {Z : Zod} {raw : Value JsNum}
  {fields : List (String × Value JsNum)} {n : JsNum} {record : V6Memory} {now : JsNum} {m : Memory}

theorem numberAt_eq_some {key : String} :
    numberAt fields key = some n ↔ property fields key = some (.num n) := by
  unfold numberAt
  split
  · rename_i h
    rw [h]
    simp
  · rename_i h
    constructor
    · intro hnone
      cases hnone
    · intro hn
      exact absurd hn (h n)

/-- The table has `v6` for the version six only. -/
theorem lookup_v6Compatibility {q : ℚ} (h : v6Compatibility.lookup q = some .v6) : q = 6 := by
  obtain ⟨before, after, heq, -⟩ := List.lookup_eq_some_iff.mp h
  have hmem : (q, CompatibilityClass.v6) ∈ v6Compatibility := by
    rw [heq]
    exact List.mem_append_right _ List.mem_cons_self
  simpa [v6Compatibility] using hmem

theorem compatibilityOf_eq_v6 {version : Option JsNum} :
    compatibilityOf version = .v6 ↔ version = some (.finite 6) := by
  constructor
  · intro h
    rcases version with _ | _ | _
    · cases h
    · rename_i q
      rw [compatibilityOf] at h
      cases hlookup : v6Compatibility.lookup q with
      | none =>
        rw [hlookup] at h
        cases h
      | some c =>
        rw [hlookup] at h
        obtain rfl : c = .v6 := h
        rw [lookup_v6Compatibility hlookup]
    all_goals cases h
  · rintro rfl
    decide

theorem classifyV5Record_six (h : versionOf raw = some (.finite 6)) : classifyV5Record raw =
    { compatibility := .v6, sensitivityKnown := true, requiresClassification := false } :=
  if_pos (compatibilityOf_eq_v6.mpr h)

/-- What is of another version waits for a decision, and is of no V6 version. -/
theorem classifyV5Record_other (h : versionOf raw ≠ some (.finite 6)) : classifyV5Record raw =
    { compatibility := compatibilityOf (versionOf raw), sensitivityKnown := false,
      requiresClassification := true } :=
  if_neg fun hv6 => h (compatibilityOf_eq_v6.mp hv6)

theorem sensitivityKnown_iff : (classifyV5Record raw).sensitivityKnown = true ↔
    versionOf raw = some (.finite 6) := by
  by_cases h : versionOf raw = some (.finite 6)
  · simp [classifyV5Record_six h, h]
  · simp [classifyV5Record_other h, h]

theorem unclassified_iff : ((classifyV5Record raw).compatibility ≠ .v6 ∧
    (classifyV5Record raw).requiresClassification = true) ↔ versionOf raw ≠ some (.finite 6) := by
  by_cases h : versionOf raw = some (.finite 6)
  · simp [classifyV5Record_six h, h]
  · simp [classifyV5Record_other h, h, compatibilityOf_eq_v6]

theorem versionOf_eq_six : versionOf raw = some (.finite 6) ↔ CarriesSix raw ∨ CountsSix raw := by
  constructor
  · intro h
    cases raw with
    | object fields =>
      rcases Option.or_eq_some_iff.mp h with hschema | ⟨hnone, hversion⟩
      · exact .inl ⟨fields, rfl, numberAt_eq_some.mp hschema⟩
      · exact .inr ⟨fields, rfl, hnone, numberAt_eq_some.mp hversion⟩
    | _ => cases h
  · rintro (⟨fields, rfl, hschema⟩ | ⟨fields, rfl, hnone, hversion⟩)
    · rw [versionOf, numberAt_eq_some.mpr hschema]
      rfl
    · rw [versionOf, hnone, numberAt_eq_some.mpr hversion]
      rfl

theorem CountsSix.not_carriesSix (h : CountsSix raw) : ¬ CarriesSix raw := by
  obtain ⟨fields, rfl, hnone, -⟩ := h
  rintro ⟨fields', heq, hschema⟩
  cases heq
  rw [numberAt_eq_some.mpr hschema] at hnone
  cases hnone

/-- The parser refuses for its version what does not carry six as that of its schema, and only that. -/
theorem versionRefusal_eq_none : versionRefusal numText raw = none ↔ CarriesSix raw := by
  constructor
  · intro h
    unfold versionRefusal at h
    split at h
    · split at h
      · split_ifs at h with hsix
        rename_i hversion
        exact ⟨_, rfl, by rw [hversion, not_not.mp hsix]⟩
      · cases h
    · cases h
    · cases h
  · rintro ⟨fields, rfl, hschema⟩
    simp [versionRefusal, hschema]

theorem known_carries_iff : ((classifyV5Record raw).sensitivityKnown = true →
    versionRefusal numText raw = none ∧ CarriesSix raw) ↔ ¬ CountsSix raw := by
  rw [sensitivityKnown_iff, versionOf_eq_six, versionRefusal_eq_none]
  constructor
  · intro h hcounts
    exact hcounts.not_carriesSix (h (.inr hcounts)).2
  · rintro hno (hcarries | hcounts)
    · exact ⟨hcarries, hcarries⟩
    · exact absurd hcounts hno

theorem IsV5Object.countsSix_iff (h : IsV5Object m fields) : CountsSix (.object fields) ↔ m.version = 6 := by
  have hnone : numberAt fields "schemaVersion" = none := by
    rw [numberAt, h.schemaVersion]
  constructor
  · rintro ⟨fields', heq, -, hversion⟩
    cases heq
    rw [h.version] at hversion
    injection hversion with hversion
    injection hversion with hversion
    injection hversion with hversion
    exact_mod_cast hversion
  · intro hsix
    refine ⟨fields, rfl, hnone, ?_⟩
    rw [h.version, hsix]
    rfl

/-- A memory of V5 waits for its classification unless its revision counter stands at six. -/
theorem IsV5Object.unclassified_iff (h : IsV5Object m fields) :
    ((classifyV5Record (.object fields)).compatibility ≠ .v6 ∧
      (classifyV5Record (.object fields)).requiresClassification = true) ↔ m.version ≠ 6 := by
  have hcarries : ¬ CarriesSix (.object fields) := by
    rintro ⟨fields', heq, hschema⟩
    cases heq
    rw [h.schemaVersion] at hschema
    cases hschema
  rw [Schema.unclassified_iff, Ne, versionOf_eq_six, h.countsSix_iff, or_iff_right hcarries]

theorem lifecycleStateOf_eq_active : lifecycleStateOf record now = .active ↔
    record.deletedAt = none ∧ (∀ t ∈ record.expiresAt, numLe (.finite t) now = false) ∧
      record.supersededBy = none ∧ record.archivedAt = none := by
  have hexpired : (record.expiresAt.any fun t => numLe (.finite t) now) = false ↔
      ∀ t ∈ record.expiresAt, numLe (.finite t) now = false := by
    cases record.expiresAt <;> simp
  rw [← hexpired, lifecycleStateOf]
  cases record.deletedAt with
  | some t => simp
  | none =>
    cases record.expiresAt.any fun t => numLe (.finite t) now with
    | true => simp
    | false => cases record.supersededBy <;> cases record.archivedAt <;> simp

theorem ordinary_iff : Ordinary record now ↔
    lifecycleStateOf record now = .active ∧ record.legalHold = false := by
  rw [lifecycleStateOf_eq_active]
  constructor
  · rintro ⟨hdeleted, hexpires, hsuperseded, harchived, hhold⟩
    exact ⟨⟨hdeleted, hexpires, hsuperseded, harchived⟩, hhold⟩
  · rintro ⟨⟨hdeleted, hexpires, hsuperseded, harchived⟩, hhold⟩
    exact ⟨hdeleted, hexpires, hsuperseded, harchived, hhold⟩

/-- The projection takes every record that is internal or public. -/
theorem exists_projection_iff : (∃ memory, v6ToV5Projection record = .ok memory) ↔
    bandIndex record.sensitivity ≤ bandIndex .internal := by
  rw [← not_lt]
  constructor
  · rintro ⟨memory, h⟩ hlt
    rw [v6ToV5Projection, if_pos hlt] at h
    cases h
  · intro hle
    exact ⟨_, if_neg hle⟩

theorem projection_active_iff : (∀ memory, v6ToV5Projection record = .ok memory →
    lifecycleStateOf record now = .active ∧ record.legalHold = false) ↔
      bandIndex .internal < bandIndex record.sensitivity ∨ Ordinary record now := by
  rw [ordinary_iff, ← not_le, ← exists_projection_iff, ← imp_iff_not_or, forall_exists_index]

end Boundary

/-! ### The boundary -/

/-- A record of known sensitivity is one that the parser does not refuse for its version, a memory of V5
    waits for its classification, and what is projected is active and on no hold: each exactly where the
    revision counter of a record of no schema is not at six, and where no record that is internal or
    public has a marker or a hold. -/
theorem boundary_holds_iff (numText : JsNum → String) :
    (∀ raw, ((classifyV5Record raw).sensitivityKnown = true →
      versionRefusal numText raw = none ∧ CarriesSix raw) ↔ ¬ CountsSix raw) ∧
    (∀ m fields, IsV5Object m fields →
      (((classifyV5Record (.object fields)).compatibility ≠ .v6 ∧
        (classifyV5Record (.object fields)).requiresClassification = true) ↔ m.version ≠ 6)) ∧
    ∀ record now, (∀ memory, v6ToV5Projection record = .ok memory →
      lifecycleStateOf record now = .active ∧ record.legalHold = false) ↔
        bandIndex .internal < bandIndex record.sensitivity ∨ Ordinary record now :=
  ⟨fun _ => known_carries_iff, fun _ _ => IsV5Object.unclassified_iff, fun _ _ => projection_active_iff⟩

/-- A memory of V5 after some changes, as an object. -/
def revisedObject (version : ℚ) : List (String × Value JsNum) :=
  [("id", .str "m1"), ("type", .str "fact"), ("content", .str "c"), ("version", .num (.finite version))]

def revisedMemory : Memory where
  id := "m1"
  type := .fact
  content := "c"
  scope := "global"
  tags := []
  importance := 3
  confidence := 1 / 2
  trust := .trusted
  createdAt := "2026-01-01T00:00:00.000Z"
  updatedAt := "2026-01-01T00:00:00.000Z"
  version := 4
  provenance := { sourceType := .manual }

theorem revised_unclassified : (classifyV5Record (.object (revisedObject 4))).compatibility ≠ .v6 ∧
    (classifyV5Record (.object (revisedObject 4))).requiresClassification = true :=
  ((boundary_holds_iff fun _ => "").2.1 revisedMemory (revisedObject 4) ⟨rfl, rfl⟩).mpr (by decide)

/-! ### Where it does not hold -/

/-- A public record that was deleted, archived and superseded, and is on hold. -/
def tombstone : V6Memory where
  id := "m1"
  type := .fact
  scope := "global"
  organizationId := "org-a"
  content := "c"
  importance := 3
  confidence := 1 / 2
  trust := .trusted
  sensitivity := .isPublic
  retention := .persistent
  legalHold := true
  archivedAt := some "2026-02-01T00:00:00.000Z"
  deletedAt := some "2026-03-01T00:00:00.000Z"
  supersededBy := some "m2"
  version := 1
  createdAt := "2026-01-01T00:00:00.000Z"
  updatedAt := "2026-01-01T00:00:00.000Z"

theorem boundary_fails : (classifyV5Record (.object (revisedObject 6))).sensitivityKnown = true ∧
    (classifyV5Record (.object (revisedObject 6))).requiresClassification = false ∧
    ¬ CarriesSix (.object (revisedObject 6)) ∧
    (∃ memory, v6ToV5Projection tombstone = .ok memory) ∧
    lifecycleStateOf tombstone (.finite 0) = .deleted ∧ tombstone.legalHold = true := by
  refine ⟨by decide +kernel, by decide +kernel, ?_, ⟨_, rfl⟩, rfl, rfl⟩
  rintro ⟨fields, heq, hschema⟩
  cases heq
  cases hschema

end Remembra.V6.Schema
