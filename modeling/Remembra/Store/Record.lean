import Mathlib.Data.Rat.Floor
import Remembra.Jobs.Record

/-! The memory record, its frontmatter and the inputs a record is made of. A field that may be absent
    in TypeScript (`undefined`) is an `Option`; a timestamp is the text it is stored as. Numbers are
    rationals with the three values that are not finite beside them. -/

namespace Remembra.Store

/-! ### Closed vocabularies -/

inductive MemoryType where
  | fact | preference | decision | constraint | instruction | role | entity | relationship | event
  | history | observation
  deriving DecidableEq

inductive TrustLevel where
  | unverified | trusted | verified | system
  deriving DecidableEq

inductive SensitivityBand where
  | isPublic | internal | confidential | secret
  deriving DecidableEq

inductive SourceType where
  | manual | conversation | agent | import | system
  deriving DecidableEq

inductive RetentionMode where
  | pinned | persistent | ephemeral | decaying | neverExpire
  deriving DecidableEq

inductive RelationKind where
  | supports | contradicts | supersedes | refines | duplicates | related
  deriving DecidableEq

inductive MemoryOwner where
  | user | agent | project | organization | global
  deriving DecidableEq

inductive MemoryAccess where
  | isPrivate | shared | global
  deriving DecidableEq

/-- The options of a `z.enum` with the text of each. -/
class Vocabulary (ε : Type) where
  options : List ε
  text : ε → String
  complete : ∀ e, e ∈ options
  text_inj : ∀ e f, text e = text f → e = f

/-- The option a text names, if it names one. -/
def Vocabulary.ofText {ε : Type} [Vocabulary ε] (s : String) : Option ε :=
  (Vocabulary.options (ε := ε)).find? fun e => Vocabulary.text e = s

/-- A text that an option was written as names that option. -/
@[simp] theorem Vocabulary.ofText_text {ε : Type} [Vocabulary ε] (e : ε) :
    Vocabulary.ofText (Vocabulary.text e) = some e := by
  unfold ofText
  cases h : (Vocabulary.options (ε := ε)).find? fun f => Vocabulary.text f = Vocabulary.text e with
  | none =>
    have := List.find?_eq_none.mp h e (Vocabulary.complete e)
    simp at this
  | some f =>
    have := List.find?_some h
    rw [Vocabulary.text_inj f e (of_decide_eq_true this)]

instance : Vocabulary MemoryType where
  options := [.fact, .preference, .decision, .constraint, .instruction, .role, .entity,
    .relationship, .event, .history, .observation]
  text
    | .fact => "fact"
    | .preference => "preference"
    | .decision => "decision"
    | .constraint => "constraint"
    | .instruction => "instruction"
    | .role => "role"
    | .entity => "entity"
    | .relationship => "relationship"
    | .event => "event"
    | .history => "history"
    | .observation => "observation"
  complete := by rintro (_ | _) <;> decide
  text_inj := by rintro (_ | _) (_ | _) <;> decide

instance : Vocabulary TrustLevel where
  options := [.unverified, .trusted, .verified, .system]
  text
    | .unverified => "unverified"
    | .trusted => "trusted"
    | .verified => "verified"
    | .system => "system"
  complete := by rintro (_ | _) <;> decide
  text_inj := by rintro (_ | _) (_ | _) <;> decide

instance : Vocabulary SourceType where
  options := [.manual, .conversation, .agent, .import, .system]
  text
    | .manual => "manual"
    | .conversation => "conversation"
    | .agent => "agent"
    | .import => "import"
    | .system => "system"
  complete := by rintro (_ | _) <;> decide
  text_inj := by rintro (_ | _) (_ | _) <;> decide

instance : Vocabulary RetentionMode where
  options := [.pinned, .persistent, .ephemeral, .decaying, .neverExpire]
  text
    | .pinned => "pinned"
    | .persistent => "persistent"
    | .ephemeral => "ephemeral"
    | .decaying => "decaying"
    | .neverExpire => "neverExpire"
  complete := by rintro (_ | _) <;> decide
  text_inj := by rintro (_ | _) (_ | _) <;> decide

instance : Vocabulary RelationKind where
  options := [.supports, .contradicts, .supersedes, .refines, .duplicates, .related]
  text
    | .supports => "supports"
    | .contradicts => "contradicts"
    | .supersedes => "supersedes"
    | .refines => "refines"
    | .duplicates => "duplicates"
    | .related => "related"
  complete := by rintro (_ | _) <;> decide
  text_inj := by rintro (_ | _) (_ | _) <;> decide

instance : Vocabulary MemoryOwner where
  options := [.user, .agent, .project, .organization, .global]
  text
    | .user => "user"
    | .agent => "agent"
    | .project => "project"
    | .organization => "organization"
    | .global => "global"
  complete := by rintro (_ | _) <;> decide
  text_inj := by rintro (_ | _) (_ | _) <;> decide

instance : Vocabulary MemoryAccess where
  options := [.isPrivate, .shared, .global]
  text
    | .isPrivate => "private"
    | .shared => "shared"
    | .global => "global"
  complete := by rintro (_ | _) <;> decide
  text_inj := by rintro (_ | _) (_ | _) <;> decide

/-! ### Values and the platform -/

/-- A JavaScript number. -/
inductive JsNum where
  | finite (q : ℚ)
  | nan
  | infinity
  | negInfinity
  deriving DecidableEq

/-- Plain data, as YAML reads and writes it. -/
inductive Yaml where
  | null
  | bool (b : Bool)
  | num (n : JsNum)
  | str (s : String)
  | seq (items : List Yaml)
  | map (fields : List (String × Yaml))

/-- What the store uses of the platform. -/
structure Host where
  /-- `Date.parse(s)`; `none` is `NaN`. -/
  dateParse : String → Option ℤ
  /-- `new Date(t).toISOString()` -/
  toISOString : ℤ → String
  /-- `String(n)` -/
  numText : JsNum → String
  /-- `Number(s)` -/
  toNumber : String → JsNum
  /-- `String(v)` of an array or an object. -/
  objText : Yaml → String

/-- The text of the number `q` is a decimal numeral, and reading it gives `q`. -/
def Host.Numeral (h : Host) (q : ℚ) : Prop :=
  h.toNumber (h.numText (.finite q)) = .finite q ∧
    ∀ c ∈ (h.numText (.finite q)).toList, c.isDigit ∨ c ∈ ['.', '-', '+', 'e']

/-- Scalars written by older renderers may come back as numbers. -/
def asStr (h : Host) : Yaml → Option String
  | .str s => some s
  | .num n => some (h.numText n)
  | .bool b => some (if b then "true" else "false")
  | _ => none

/-- `Number(v)` -/
def numberOf (h : Host) : Yaml → JsNum
  | .null => .finite 0
  | .bool b => .finite (if b then 1 else 0)
  | .num n => n
  | .str s => h.toNumber s
  | v => h.toNumber (h.objText v)

/-- A value that counts as true in a condition: a text that is not empty. -/
def truthy (s : Option String) : Option String := s.filter fun t => t ≠ ""

def epoch (h : Host) : String := h.toISOString 0

/-- The timestamp in ISO form if it can be parsed. -/
def validDate (h : Host) (v : Option String) : Option String :=
  (v.bind h.dateParse).map h.toISOString

/-! ### Checks shared by the schemas -/

/-- The parts of a text between slashes. -/
def segments (s : String) : List String := (s.toList.splitOn '/').map String.ofList

def isTenantIdChar (c : Char) : Bool := c.isAlphanum || c ∈ ['.', '_', ':', '-']

/-- 1 to 128 ASCII letters, digits, `.`, `_`, `:` or `-`, and neither `.` nor `..`. -/
def isValidTenantId (value : String) : Bool :=
  value ≠ "" && value.length ≤ 128 && value.toList.all isTenantIdChar && value ≠ "." &&
    value ≠ ".."

def isScopeChar (c : Char) : Bool := c.isAlphanum || c ∈ ['.', '_', '/', '-']

/-- Every character but ASCII letters and digits, `.`, `_`, `/` and `-` becomes `_`. -/
def normalizeScope (scope : String) : String :=
  .ofList (scope.toList.map fun c => if isScopeChar c then c else '_')

/-- Rejects `..` segments. -/
def isSafeScope (scope : String) : Bool :=
  scope = "global" || ".." ∉ segments (normalizeScope scope)

/-- One or more ASCII letters, digits, `.`, `_` or `-`. -/
def isIdShape (s : String) : Bool :=
  s ≠ "" && s.toList.all fun c => c.isAlphanum || c ∈ ['.', '_', '-']

/-! ### Records -/

/-- Where a memory came from. -/
structure Provenance where
  sourceType : SourceType
  sessionId : Option String := none
  messageId : Option String := none
  agentId : Option String := none
  agentType : Option String := none
  agentVersion : Option String := none
  conversationId : Option String := none
  taskId : Option String := none
  runId : Option String := none
  provider : Option String := none
  deriving DecidableEq

/-- One directed edge to another memory. -/
structure Relation where
  id : String
  kind : RelationKind
  deriving DecidableEq

/-- `metaFields` is the record's `meta`. -/
structure Memory where
  id : String
  type : MemoryType
  content : String
  scope : String
  tenantId : Option String := none
  projectId : Option String := none
  userId : Option String := none
  agentId : Option String := none
  tags : List String
  importance : ℤ
  confidence : ℚ
  trust : TrustLevel
  source : Option String := none
  createdAt : String
  updatedAt : String
  lastSeen : Option String := none
  lastValidated : Option String := none
  archivedAt : Option String := none
  version : ℤ
  provenance : Provenance
  relations : Option (List Relation) := none
  retention : Option RetentionMode := none
  sensitivity : Option SensitivityBand := none
  legalHold : Option Bool := none
  owner : Option MemoryOwner := none
  access : Option MemoryAccess := none
  metaFields : Option (List (String × Yaml)) := none
  validFrom : Option String := none
  validUntil : Option String := none
  observedAt : Option String := none
  supersededBy : Option String := none
  embedding : Option (List JsNum) := none

/-- What the YAML reader finds in a file's frontmatter, key by key: the keys `parse` looks at. -/
structure Frontmatter where
  id : Option Yaml := none
  version : Option Yaml := none
  revision : Option Yaml := none
  type : Option Yaml := none
  scope : Option Yaml := none
  tags : Option Yaml := none
  importance : Option Yaml := none
  confidence : Option Yaml := none
  trust : Option Yaml := none
  created : Option Yaml := none
  updated : Option Yaml := none
  tenantId : Option Yaml := none
  projectId : Option Yaml := none
  userId : Option Yaml := none
  agentId : Option Yaml := none
  lastSeen : Option Yaml := none
  lastValidated : Option Yaml := none
  archivedAt : Option Yaml := none
  source : Option Yaml := none
  provenance : Option Yaml := none
  owner : Option Yaml := none
  access : Option Yaml := none
  metaFields : Option Yaml := none
  validFrom : Option Yaml := none
  validUntil : Option Yaml := none
  observedAt : Option Yaml := none
  supersededBy : Option Yaml := none
  retention : Option Yaml := none
  relations : Option Yaml := none
  related : Option Yaml := none
  embedding : Option Yaml := none

/-- The contents of a file: frontmatter between `---` lines and the text after it, or anything else
    (a frontmatter that cannot be read, a torn write). -/
inductive FileText where
  | memory (frontmatter : Frontmatter) (body : String)
  | other

/-! ### Inputs -/

def TenantId : Type := { value : String // isValidTenantId value = true }

instance : DecidableEq TenantId :=
  inferInstanceAs (DecidableEq { value : String // isValidTenantId value = true })

structure TenantFilter where
  organizationId : TenantId
  projectId : Option TenantId := none
  userId : Option TenantId := none
  agentId : Option TenantId := none
  /-- True only for an organization-wide principal. -/
  organizationWide : Option Bool := none

/-- The filter's own dimension, if it has one, must be the record's; without one the record may not
    have one either, unless the filter is organization-wide. -/
def matchesDimension (filter : Option TenantId) (value : Option String) : Bool :=
  match filter with
  | some id => value = some id.1
  | none => value = none

def memoryBelongsToTenant (memory : Memory) (filter : TenantFilter) : Bool :=
  memory.tenantId = some filter.organizationId.1 &&
    (filter.organizationWide = some true ||
      (matchesDimension filter.projectId memory.projectId &&
        matchesDimension filter.userId memory.userId &&
        matchesDimension filter.agentId memory.agentId))

/-- Provenance as an input: the source type may be left out. -/
structure ProvenanceInput where
  sourceType : Option SourceType := none
  sessionId : Option String := none
  messageId : Option String := none
  agentId : Option String := none
  agentType : Option String := none
  agentVersion : Option String := none
  conversationId : Option String := none
  taskId : Option String := none
  runId : Option String := none
  provider : Option String := none

structure StoreInput where
  type : MemoryType
  content : String
  scope : String := "global"
  tags : List String := []
  importance : ℤ := 3
  source : Option String := none
  confidence : Option ℚ := none
  trust : Option TrustLevel := none
  retention : Option RetentionMode := none
  provenance : Option ProvenanceInput := none
  owner : Option MemoryOwner := none
  access : Option MemoryAccess := none
  metaFields : Option (List (String × Yaml)) := none
  sensitivity : Option SensitivityBand := none
  legalHold : Option Bool := none
  validFrom : Option String := none
  validUntil : Option String := none
  observedAt : Option String := none
  supersededBy : Option String := none

/-- The text ends in `Z` or in an offset such as `+02:00` or `-0530`. -/
def endsWithZone (s : String) : Bool :=
  match s.toList.reverse with
  | 'Z' :: _ => true
  | d :: c :: ':' :: b :: a :: sign :: _ =>
    (d.isDigit && c.isDigit && b.isDigit && a.isDigit && (sign = '+' || sign = '-'))
  | d :: c :: b :: a :: sign :: _ =>
    (d.isDigit && c.isDigit && b.isDigit && a.isDigit && (sign = '+' || sign = '-'))
  | _ => false

/-- An ISO-8601 instant with an explicit zone. -/
def isIsoInstant (h : Host) (value : String) : Bool :=
  endsWithZone (Jobs.trim value) && (h.dateParse (Jobs.trim value)).isSome

/-- What the schema of `StoreInput` asks of the values beyond their types. -/
structure StoreInput.Accepted (h : Host) (input : StoreInput) : Prop where
  content : input.content ≠ ""
  importance : 1 ≤ input.importance ∧ input.importance ≤ 5
  confidence : ∀ c ∈ input.confidence, 0 ≤ c ∧ c ≤ 1
  validFrom : ∀ v ∈ input.validFrom, isIsoInstant h v = true
  validUntil : ∀ v ∈ input.validUntil, isIsoInstant h v = true
  observedAt : ∀ v ∈ input.observedAt, isIsoInstant h v = true
  scope : isSafeScope input.scope = true

end Remembra.Store
