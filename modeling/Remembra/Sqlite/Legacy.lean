import Remembra.Sqlite.Rows

/-! A memory file of the flat-file store as the SQLite migration reads it: `parseLegacyFile` is a second
    reader of the format that `parse` reads. -/

namespace Remembra.Sqlite.Legacy
open Store (Yaml JsNum Host Frontmatter Path Memory MemoryType TrustLevel RetentionMode SensitivityBand
  MemoryOwner MemoryAccess Provenance Vocabulary truthy numberOf isValidTenantId)
open Jobs (trim)

/-! ### Files -/

instance : Vocabulary SensitivityBand where
  options := [.isPublic, .internal, .confidential, .secret]
  text
    | .isPublic => "public"
    | .internal => "internal"
    | .confidential => "confidential"
    | .secret => "secret"
  complete := by rintro (_ | _) <;> decide
  text_inj := by rintro (_ | _) (_ | _) <;> decide

/-- The keys that `parseLegacyFile` looks at. -/
structure Fields extends Frontmatter where
  sensitivity : Option Yaml := none
  legalHold : Option Yaml := none

/-- The text of a file: frontmatter that YAML reads, frontmatter that YAML refuses with what the line
    reader finds in it, if it finds a field, or anything else. -/
inductive FileText where
  | yaml (fields : Fields) (body : String)
  | lines (fields : Option Fields) (body : String)
  | other

/-- What `MemoryStore` serves for the file. -/
def served (h : Host) (file : Path) : FileText → Option Memory
  | .yaml fields body => Store.parse h file (.memory fields.toFrontmatter body)
  | .lines fields body =>
    fields.bind fun fields => Store.parse h file (.memory fields.toFrontmatter body)
  | .other => none

/-- A record that migration makes; nothing checks that the kind of a relation is one. -/
structure Migrated where
  id : String
  type : MemoryType
  content : String
  scope : String
  tenantId : Option String
  projectId : Option String
  userId : Option String
  agentId : Option String
  tags : List String
  importance : ℤ
  confidence : ℚ
  trust : TrustLevel
  provenance : Provenance
  owner : MemoryOwner
  access : MemoryAccess
  validFrom : Option String
  validUntil : Option String
  observedAt : Option String
  supersededBy : Option String
  metaFields : Option (List (String × Yaml))
  sensitivity : SensitivityBand
  legalHold : Bool
  retention : Option RetentionMode
  relations : Option (List (String × String))
  version : JsNum
  createdAt : String
  updatedAt : String
  lastSeen : Option String
  archivedAt : Option String
  embedding : Option (List JsNum)

/-! ### Values -/

/-- A value that counts as true in a condition. -/
def isTruthy : Yaml → Bool
  | .null => false
  | .bool b => b
  | .num n => n ≠ .finite 0 && n ≠ .nan
  | .str s => s ≠ ""
  | _ => true

section Values
variable (h : Host)

/-- `String(v)` -/
def stringOf : Yaml → String
  | .null => "null"
  | .bool b => if b then "true" else "false"
  | .num n => h.numText n
  | .str s => s
  | v => h.objText v

/-- `v ? String(v) : undefined` -/
def shown (v : Option Yaml) : Option String := (v.filter isTruthy).map (stringOf h)

/-- `Math.max(1, Math.round(n))` -/
def atLeastOne : JsNum → JsNum
  | .finite q => .finite (max 1 ⌊q + 1 / 2⌋ : ℤ)
  | .negInfinity => .finite 1
  | n => n

end Values

/-! ### `parseLegacyFile` -/

section Parse
variable (h : Host)

def legacyTags (fields : Fields) : List String :=
  match fields.tags with
  | some (.seq items) => (items.map (stringOf h)).filter fun t => t ≠ ""
  | some (.str raw) =>
    ((Store.splitComma (Store.stripBrackets raw)).map trim).filter fun t => t ≠ ""
  | _ => []

/-- The object has `conversation` as its source type, whatever else it has. -/
def saysConversation (provenance : Option Yaml) : Bool :=
  match provenance with
  | some (.map fields) =>
    match fields.lookup "sourceType" with
    | some (.str s) => s = "conversation"
    | _ => false
  | _ => false

def legacyConfidence (fields : Fields) : ℚ :=
  match fields.confidence.map (numberOf h) with
  | some (.finite c) => min 1 (max 0 c)
  | _ => if saysConversation fields.provenance then 7 / 10 else 1

def legacyProvenance (fields : Fields) : Provenance :=
  match fields.provenance with
  | some (.map fields) => (Store.parseProvenance fields).getD { sourceType := .manual }
  | _ => { sourceType := .manual }

/-- A part of a relation: `e.key ?? e[index]`. -/
def edgePart (e : Yaml) (key : String) (index : ℕ) : Option Yaml :=
  let given (v : Option Yaml) : Option Yaml := match v with
    | some .null => none
    | v => v
  match e with
  | .map fields => (given (fields.lookup key)).or (given (fields.lookup (toString index)))
  | .seq items => given items[index]?
  | _ => none

def legacyEdge (e : Yaml) : Option (String × String) :=
  match e with
  | .map _ | .seq _ =>
    let id := ((edgePart e "id" 0).map (stringOf h)).getD ""
    if id = "" then none
    else some (id, ((edgePart e "kind" 1).map (stringOf h)).getD "related")
  | _ => none

def legacyRelations (fields : Fields) : Option (List (String × String)) :=
  let edges := match fields.relations with
    | some (.seq items) => items.filterMap (legacyEdge h)
    | _ => []
  if edges = [] then none else some edges

/-- The option that `String(v)` names, if `v` counts as true. -/
def legacyOption {ε : Type} [Vocabulary ε] (v : Option Yaml) : Option ε :=
  (shown h v).bind Vocabulary.ofText

/-- The record of a frontmatter; `parseFloat` is the number a text begins with. -/
def migrated (parseFloat : String → JsNum) (now : ℤ) (file : Path) (fields : Fields)
    (type : MemoryType) (content : String) : Migrated where
  id := (shown h fields.id).getD (Store.stem file)
  type := type
  content := content
  scope := (shown h fields.scope).getD "global"
  tenantId := truthy (shown h fields.tenantId)
  projectId := truthy (shown h fields.projectId)
  userId := truthy (shown h fields.userId)
  agentId := truthy (shown h fields.agentId)
  tags := legacyTags h fields
  importance := Store.readImportance h fields.toFrontmatter
  confidence := legacyConfidence h fields
  trust := (legacyOption h fields.trust).getD .trusted
  provenance := legacyProvenance fields
  owner := (legacyOption h fields.owner).getD .global
  access := (legacyOption h fields.access).getD .global
  validFrom := truthy (shown h fields.validFrom)
  validUntil := truthy (shown h fields.validUntil)
  observedAt := truthy (shown h fields.observedAt)
  supersededBy := truthy (shown h fields.supersededBy)
  metaFields := Store.readMetaFields fields.toFrontmatter
  sensitivity := ((fields.sensitivity.map (stringOf h)).bind Vocabulary.ofText).getD .isPublic
  legalHold := match fields.legalHold with
    | some (.bool b) => b
    | _ => false
  retention := legacyOption h fields.retention
  relations := legacyRelations h fields
  version := match fields.revision with
    | some v => atLeastOne (numberOf h v)
    | none => .finite 1
  createdAt := (shown h fields.created).getD (h.toISOString now)
  updatedAt := (shown h fields.updated).getD ((shown h fields.created).getD (h.toISOString now))
  lastSeen := truthy (shown h fields.lastSeen)
  archivedAt := truthy (shown h fields.archivedAt)
  embedding := match fields.embedding with
    | some (.str raw) => if raw = "" then none
      else some (((Store.splitComma raw).map parseFloat).filter fun n => Store.finiteList [n])
    | _ => none

/-- A tenant field that migration takes and that is no valid id. -/
def legacyBadTenant (fields : Fields) : Bool :=
  [fields.tenantId, fields.projectId, fields.userId, fields.agentId].any fun v =>
    !(shown h v).all isValidTenantId

/-- Empty, with two dots or with a backslash. -/
def legacyBadScope (scope : String) : Bool :=
  scope = "" || hasDots scope.toList || '\\' ∈ scope.toList

/-- The record in a file at the time `now`, or `none` where migration skips the file. -/
def parseLegacyFile (parseFloat : String → JsNum) (now : ℤ) (file : Path) :
    FileText → Option Migrated
  | .yaml fields body =>
    match (Vocabulary.ofText ((shown h fields.type).getD "fact") : Option MemoryType) with
    | none => none
    | some type =>
      let content := trim body
      if legacyBadScope ((shown h fields.scope).getD "global") then none
      else if legacyBadTenant h fields || content = "" then none
      else some (migrated h parseFloat now file fields type content)
  | _ => none

end Parse

end Remembra.Sqlite.Legacy
