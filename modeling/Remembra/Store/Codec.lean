import Remembra.Store.Path

/-! Records as files: `render` writes a record, `parse` reads a file back and normalizes what it finds,
    `storeLocked` makes the record of an input. YAML is read as the plain data it stands for; the
    warnings `parse` logs are left out. -/

namespace Remembra.Store
open Jobs (trim)

def schemaVersion : ℤ := 3
def tenantSchemaVersion : ℤ := 4

/-- The fields of an object, those that are `undefined` left out. -/
def present (fields : List (String × Option Yaml)) : List (String × Yaml) :=
  fields.filterMap fun (key, value) => value.map (key, ·)

def joinComma (texts : List String) : String :=
  .ofList ([','].intercalate (texts.map String.toList))

def splitComma (s : String) : List String := (s.toList.splitOn ',').map String.ofList

/-! ### Writing -/

def provenanceFields (p : Provenance) : List (String × Option Yaml) :=
  [("sourceType", some (.str (Vocabulary.text p.sourceType))),
   ("sessionId", p.sessionId.map .str),
   ("messageId", p.messageId.map .str),
   ("agentId", p.agentId.map .str),
   ("agentType", p.agentType.map .str),
   ("agentVersion", p.agentVersion.map .str),
   ("conversationId", p.conversationId.map .str),
   ("taskId", p.taskId.map .str),
   ("runId", p.runId.map .str),
   ("provider", p.provider.map .str)]

def renderProvenance (p : Provenance) : Yaml := .map (present (provenanceFields p))

def renderRelation (r : Relation) : Yaml :=
  .map [("id", .str r.id), ("kind", .str (Vocabulary.text r.kind))]

section Render
variable (h : Host)

def renderFrontmatter (m : Memory) : Frontmatter where
  id := some (.str m.id)
  -- records with a tenant are of a schema that older readers skip
  version := some (.num (.finite
    (if (truthy m.tenantId).isSome then tenantSchemaVersion else schemaVersion)))
  revision := some (.num (.finite m.version))
  type := some (.str (Vocabulary.text m.type))
  scope := some (.str m.scope)
  tags := some (.seq (m.tags.map .str))
  importance := some (.num (.finite m.importance))
  confidence := some (.num (.finite m.confidence))
  trust := some (.str (Vocabulary.text m.trust))
  created := some (.str m.createdAt)
  updated := some (.str m.updatedAt)
  tenantId := (truthy m.tenantId).map .str
  projectId := (truthy m.projectId).map .str
  userId := (truthy m.userId).map .str
  agentId := (truthy m.agentId).map .str
  lastSeen := (truthy m.lastSeen).map .str
  lastValidated := (truthy m.lastValidated).map .str
  archivedAt := (truthy m.archivedAt).map .str
  source := (truthy m.source).map .str
  provenance := some (renderProvenance m.provenance)
  owner := m.owner.map fun o => .str (Vocabulary.text o)
  access := m.access.map fun a => .str (Vocabulary.text a)
  metaFields := m.metaFields.map .map
  validFrom := (truthy m.validFrom).map .str
  validUntil := (truthy m.validUntil).map .str
  observedAt := (truthy m.observedAt).map .str
  supersededBy := (truthy m.supersededBy).map .str
  retention := m.retention.map fun r => .str (Vocabulary.text r)
  relations := (m.relations.filter fun rs => rs ≠ []).map fun rs => .seq (rs.map renderRelation)
  embedding := (m.embedding.filter fun ns => ns ≠ []).map fun ns => .str (joinComma (ns.map h.numText))

def render (m : Memory) : FileText := .memory (renderFrontmatter h m) (m.content ++ "\n")

end Render

/-! ### Reading -/

/-- Without a leading `[` and a trailing `]`. -/
def stripBrackets (s : String) : String :=
  let l := if s.toList.head? = some '[' then s.toList.tail else s.toList
  .ofList (if l.getLast? = some ']' then l.dropLast else l)

/-- A `[a, b]` list in a scalar. -/
def listItems (raw : String) : List String :=
  ((splitComma (trim (stripBrackets raw))).map trim).filter fun t => t ≠ ""

/-- A field of an object that is text if it is there; `none` when it is something else. -/
def optionalText (fields : List (String × Yaml)) (key : String) : Option (Option String) :=
  match fields.lookup key with
  | none => some none
  | some (.str s) => some (some s)
  | some _ => none

/-- `ProvenanceSchema.safeParse` -/
def parseProvenance (fields : List (String × Yaml)) : Option Provenance := do
  let sourceType ← ((optionalText fields "sourceType").bind id).bind Vocabulary.ofText
  let sessionId ← optionalText fields "sessionId"
  let messageId ← optionalText fields "messageId"
  let agentId ← optionalText fields "agentId"
  let agentType ← optionalText fields "agentType"
  let agentVersion ← optionalText fields "agentVersion"
  let conversationId ← optionalText fields "conversationId"
  let taskId ← optionalText fields "taskId"
  let runId ← optionalText fields "runId"
  let provider ← optionalText fields "provider"
  some ⟨sourceType, sessionId, messageId, agentId, agentType, agentVersion, conversationId,
    taskId, runId, provider⟩

/-- Conversation extraction is never trusted by itself. -/
def defaultTrust (sourceType : SourceType) : TrustLevel :=
  match sourceType with
  | .conversation => .unverified
  | .system => .system
  | _ => .trusted

def defaultConfidence (sourceType : SourceType) : ℚ :=
  if sourceType = .conversation then 7 / 10 else 1

def finiteList (ns : List JsNum) : Bool :=
  ns.all fun n => match n with
    | .finite _ => true
    | _ => false

section Parse
variable (h : Host)

def readVersion (fm : Frontmatter) : Option ℤ :=
  let version : JsNum := match fm.version with
    | none => .finite schemaVersion
    | some v => match asStr h v with
      | none => .nan
      | some s => h.toNumber s
  match version with
  | .finite q => if q.den = 1 ∧ q.num ≤ tenantSchemaVersion then some q.num else none
  | _ => none

/-- A tenant field that is there but no valid id. -/
def badTenantField (v : Option Yaml) : Bool :=
  v.any fun v => !(asStr h v).any isValidTenantId

def badTenant (fm : Frontmatter) (version : ℤ) : Bool :=
  badTenantField h fm.tenantId || badTenantField h fm.projectId || badTenantField h fm.userId ||
    badTenantField h fm.agentId ||
    (version ≥ tenantSchemaVersion && !isValidTenantId ((fm.tenantId.bind (asStr h)).getD ""))

def readRevision (fm : Frontmatter) : ℤ :=
  match fm.revision.map (numberOf h) with
  | some (.finite q) => if q.den = 1 ∧ 1 ≤ q.num then q.num else 1
  | _ => 1

/-- An id of the wrong shape; the file's name is the id anyway. -/
def badId (fm : Frontmatter) : Bool := fm.id.any fun v => !(asStr h v).any isIdShape

def readType (fm : Frontmatter) : Option MemoryType :=
  match fm.type with
  | none => some .fact
  | some v => Vocabulary.ofText ((asStr h v).getD "")

def readScope (fm : Frontmatter) : String :=
  match fm.scope with
  | none => "global"
  | some v => (asStr h v).getD ""

/-- Empty, with a `..` segment or with a backslash. -/
def badScope (scope : String) : Bool :=
  scope = "" || ".." ∈ segments scope || '\\' ∈ scope.toList

def readTags (fm : Frontmatter) : List String :=
  match fm.tags with
  | some (.seq items) => (items.map fun t => (asStr h t).getD "").filter fun t => t ≠ ""
  | some (.str raw) => listItems raw
  | _ => []

/-- `Math.round`, clamped to 1 to 5. -/
def readImportance (fm : Frontmatter) : ℤ :=
  let impNum : JsNum := match fm.importance with
    | none | some .null => .finite 3
    | some v => numberOf h v
  match impNum with
  | .finite q => min 5 (max 1 ⌊q + 1 / 2⌋)
  | _ => 3

def readProvenance (fm : Frontmatter) : Provenance :=
  match fm.provenance with
  | none | some .null => { sourceType := .manual }
  | some (.map fields) => (parseProvenance fields).getD { sourceType := .manual }
  | some v =>
    match asStr h v with
    | some "auto" => { sourceType := .conversation }
    | some s => { sourceType := (Vocabulary.ofText s).getD .manual }
    | none => { sourceType := .manual }

def readConfidence (fm : Frontmatter) (sourceType : SourceType) : ℚ :=
  match fm.confidence.map (numberOf h) with
  | some (.finite c) => min 1 (max 0 c)
  | _ => defaultConfidence sourceType

def readTrust (fm : Frontmatter) (sourceType : SourceType) : TrustLevel :=
  ((fm.trust.bind (asStr h)).bind Vocabulary.ofText).getD (defaultTrust sourceType)

def readMetaFields (fm : Frontmatter) : Option (List (String × Yaml)) :=
  match fm.metaFields with
  | some (.map fields) => some fields
  | _ => none

def readRelation : Yaml → Option Relation
  | .map fields =>
    match fields.lookup "id", (fields.lookup "kind").bind (asStr h) with
    | some (.str id), some kind =>
      if isIdShape id then (Vocabulary.ofText kind).map (⟨id, ·⟩) else none
    | _, _ => none
  | _ => none

/-- Typed edges, or the untyped `related` list of older files. -/
def readRelations (fm : Frontmatter) : Option (List Relation) :=
  let typed := match fm.relations with
    | some (.seq items) => items.filterMap (readRelation h)
    | _ => []
  let legacy := match fm.related with
    | some (.str raw) => listItems raw
    | some (.seq items) => items.map fun r => (asStr h r).getD ""
    | _ => []
  let relations := if typed ≠ [] then typed
    else (legacy.filter isIdShape).map fun id => ⟨id, .related⟩
  if relations = [] then none else some relations

def embeddingNumbers (fm : Frontmatter) : List JsNum :=
  match fm.embedding with
  | some (.seq items) => items.map (numberOf h)
  | some (.str raw) => (splitComma (stripBrackets raw)).map fun n => h.toNumber (trim n)
  | _ => []

def readEmbedding (fm : Frontmatter) : Option (List JsNum) :=
  let nums := embeddingNumbers h fm
  if nums ≠ [] ∧ finiteList nums then some nums else none

def readDate (v : Option Yaml) : Option String := validDate h (v.bind (asStr h))

/-- The record in a file, or `none` where `parse` skips the file. -/
def parse (file : Path) : FileText → Option Memory
  | .other => none
  | .memory fm body =>
    match readVersion h fm with
    | none => none
    | some version =>
      if badTenant h fm version || badId h fm then none else
      match readType h fm with
      | none => none
      | some type =>
        let scope := readScope h fm
        let content := trim body
        if badScope scope || content = "" then none else
        let provenance := readProvenance h fm
        let createdAt := (readDate h fm.created).getD (epoch h)
        some {
          id := stem file
          type := type
          content := content
          scope := scope
          tags := readTags h fm
          importance := readImportance h fm
          confidence := readConfidence h fm provenance.sourceType
          trust := readTrust h fm provenance.sourceType
          provenance := provenance
          owner := some (((fm.owner.bind (asStr h)).bind Vocabulary.ofText).getD .global)
          access := some (((fm.access.bind (asStr h)).bind Vocabulary.ofText).getD .global)
          tenantId := truthy (fm.tenantId.bind (asStr h))
          projectId := truthy (fm.projectId.bind (asStr h))
          userId := truthy (fm.userId.bind (asStr h))
          agentId := truthy (fm.agentId.bind (asStr h))
          metaFields := readMetaFields fm
          validFrom := truthy (readDate h fm.validFrom)
          validUntil := truthy (readDate h fm.validUntil)
          observedAt := truthy (readDate h fm.observedAt)
          supersededBy := truthy (fm.supersededBy.bind (asStr h))
          createdAt := createdAt
          updatedAt := (readDate h fm.updated).getD createdAt
          lastSeen := readDate h fm.lastSeen
          lastValidated := readDate h fm.lastValidated
          archivedAt := readDate h fm.archivedAt
          version := readRevision h fm
          source := fm.source.bind (asStr h)
          retention := (fm.retention.bind (asStr h)).bind Vocabulary.ofText
          relations := readRelations h fm
          embedding := readEmbedding h fm }

end Parse

/-! ### The record of an input -/

/-- A text of the input's provenance, if it has one. -/
def provenanceText (p : Option ProvenanceInput) (field : ProvenanceInput → Option String) :
    Option String := truthy (p.bind field)

def newProvenance (p : Option ProvenanceInput) : Provenance where
  sourceType := (p.bind (·.sourceType)).getD .manual
  sessionId := provenanceText p (·.sessionId)
  messageId := provenanceText p (·.messageId)
  agentId := provenanceText p (·.agentId)
  agentType := provenanceText p (·.agentType)
  agentVersion := provenanceText p (·.agentVersion)
  conversationId := provenanceText p (·.conversationId)
  taskId := provenanceText p (·.taskId)
  runId := provenanceText p (·.runId)
  provider := provenanceText p (·.provider)

def defaultOwner (p : Provenance) : MemoryOwner :=
  if p.sourceType = .agent then .agent else .global

/-- The access that `REMEMBRA_DEFAULT_ACCESS` configures, if it configures one. -/
def defaultAccess (configured : Option String) : MemoryAccess :=
  (configured.bind Vocabulary.ofText).getD .global

/-- The record that `storeLocked` writes and returns. -/
def storeRecord (h : Host) (configured : Option String) (now : ℤ) (id : String)
    (input : StoreInput) (embedding : Option (List JsNum)) (tenant : Option TenantFilter) :
    Memory :=
  let provenance := newProvenance input.provenance
  { id := id
    type := input.type
    content := input.content
    scope := input.scope
    tenantId := tenant.map (·.organizationId.1)
    projectId := (tenant.bind (·.projectId)).map (·.1)
    userId := (tenant.bind (·.userId)).map (·.1)
    agentId := (tenant.bind (·.agentId)).map (·.1)
    tags := input.tags
    importance := input.importance
    createdAt := h.toISOString now
    updatedAt := h.toISOString now
    version := 1
    source := input.source
    confidence := input.confidence.getD (defaultConfidence provenance.sourceType)
    trust := input.trust.getD (defaultTrust provenance.sourceType)
    provenance := provenance
    owner := some (input.owner.getD (defaultOwner provenance))
    access := some (input.access.getD (defaultAccess configured))
    retention := input.retention
    validFrom := truthy input.validFrom
    validUntil := truthy input.validUntil
    observedAt := truthy input.observedAt
    supersededBy := truthy input.supersededBy
    metaFields := input.metaFields
    embedding := embedding }

end Remembra.Store
