import Remembra.Service.Snapshot
import Remembra.Sqlite.Legacy

/-! The signed manifest of a tenant migration: the mappings, one record with a checksum for each memory
    and one for each reference. What is signed and what is hashed is the canonical JSON of a value, its
    keys in order. -/

namespace Remembra.TenantMigration
open Store (Yaml JsNum Memory MemoryOwner MemoryAccess Provenance Relation Vocabulary)
open Service (codeUnits isHex isMemoryId isTenantIdText)
open Jobs (utf16Length)

/-- What the migration uses of the platform. -/
structure Platform where
  /-- `String(n)` -/
  numText : JsNum → String
  /-- `createHash("sha256").update(text, "utf8").digest("hex")` -/
  sha256 : String → String
  /-- `createHmac("sha256", key).update(text, "utf8").digest("base64url")` -/
  hmac : List UInt8 → String → String

/-! ### Canonical JSON -/

/-- The digits of a code unit below 256 as `\u00xx`. -/
def hexEscape (c : Char) : String :=
  let digit := fun n : ℕ => (Nat.digitChar n).toString
  "\\u00" ++ digit (c.toNat / 16) ++ digit (c.toNat % 16)

def escapeChar (c : Char) : String :=
  match c with
  | '"' => "\\\""
  | '\\' => "\\\\"
  | '\n' => "\\n"
  | '\r' => "\\r"
  | '\t' => "\\t"
  | c =>
    if c.toNat = 8 then "\\b"
    else if c.toNat = 12 then "\\f"
    else if c.toNat < 32 then hexEscape c
    else c.toString

/-- `JSON.stringify` of a text. -/
def jsonString (s : String) : String := "\"" ++ String.join (s.toList.map escapeChar) ++ "\""

/-- `JSON.stringify` of a number. -/
def jsonNumber (P : Platform) : JsNum → String
  | .finite q => P.numText (.finite q)
  | _ => "null"

/-- `Object.keys(record).sort()` -/
def sortKeys (fields : List (String × String)) : List (String × String) :=
  fields.insertionSort fun left right => codeUnits left.1 ≤ codeUnits right.1

mutual

def canonicalJson (P : Platform) : Yaml → String
  | .null => "null"
  | .bool b => if b then "true" else "false"
  | .num n => jsonNumber P n
  | .str s => jsonString s
  | .seq items => "[" ++ ",".intercalate (canonicalItems P items) ++ "]"
  | .map fields =>
    "\x7b" ++ ",".intercalate ((sortKeys (canonicalFields P fields)).map fun (key, text) =>
      jsonString key ++ ":" ++ text) ++ "\x7d"

def canonicalItems (P : Platform) : List Yaml → List String
  | [] => []
  | item :: items => canonicalJson P item :: canonicalItems P items

def canonicalFields (P : Platform) : List (String × Yaml) → List (String × String)
  | [] => []
  | (key, value) :: fields => (key, canonicalJson P value) :: canonicalFields P fields

end

/-- `sha256` of the runner: the digest of the canonical JSON. -/
def sha256 (P : Platform) (value : Yaml) : String := P.sha256 (canonicalJson P value)

/-! ### Memories as values -/

/-- A property that is there. -/
def given (key : String) (value : Option Yaml) : List (String × Yaml) :=
  (value.map fun v => (key, v)).toList

def textOf {ε : Type} [Vocabulary ε] (e : ε) : Yaml := .str (Vocabulary.text e)

def provenanceValue (p : Provenance) : Yaml :=
  .map <| [("sourceType", textOf p.sourceType)] ++
    given "sessionId" (p.sessionId.map .str) ++ given "messageId" (p.messageId.map .str) ++
    given "agentId" (p.agentId.map .str) ++ given "agentType" (p.agentType.map .str) ++
    given "agentVersion" (p.agentVersion.map .str) ++
    given "conversationId" (p.conversationId.map .str) ++ given "taskId" (p.taskId.map .str) ++
    given "runId" (p.runId.map .str) ++ given "provider" (p.provider.map .str)

def relationValue (r : Relation) : Yaml := .map [("id", .str r.id), ("kind", textOf r.kind)]

def memoryValue (m : Memory) : Yaml :=
  .map <|
    [("id", .str m.id), ("type", textOf m.type), ("content", .str m.content), ("scope", .str m.scope)] ++
    given "tenantId" (m.tenantId.map .str) ++ given "projectId" (m.projectId.map .str) ++
    given "userId" (m.userId.map .str) ++ given "agentId" (m.agentId.map .str) ++
    [("tags", .seq (m.tags.map .str)), ("importance", .num (.finite m.importance)),
      ("confidence", .num (.finite m.confidence)), ("trust", textOf m.trust)] ++
    given "source" (m.source.map .str) ++
    [("createdAt", .str m.createdAt), ("updatedAt", .str m.updatedAt)] ++
    given "lastSeen" (m.lastSeen.map .str) ++ given "lastValidated" (m.lastValidated.map .str) ++
    given "archivedAt" (m.archivedAt.map .str) ++
    [("version", .num (.finite m.version)), ("provenance", provenanceValue m.provenance)] ++
    given "relations" (m.relations.map fun relations => .seq (relations.map relationValue)) ++
    given "retention" (m.retention.map textOf) ++ given "sensitivity" (m.sensitivity.map textOf) ++
    given "legalHold" (m.legalHold.map .bool) ++ given "owner" (m.owner.map textOf) ++
    given "access" (m.access.map textOf) ++ given "meta" (m.metaFields.map .map) ++
    given "validFrom" (m.validFrom.map .str) ++ given "validUntil" (m.validUntil.map .str) ++
    given "observedAt" (m.observedAt.map .str) ++ given "supersededBy" (m.supersededBy.map .str) ++
    given "embedding" (m.embedding.map fun vector => .seq (vector.map .num))

/-! ### The manifest -/

structure OrganizationMapping where
  sourceNamespace : String
  destination : String

structure EntityMapping where
  source : String
  destination : String

structure EntityMappings where
  users : List EntityMapping := []
  projects : List EntityMapping := []
  agents : List EntityMapping := []
  scopes : List EntityMapping := []

structure AclMapping where
  sourceOwner : MemoryOwner
  sourceAccess : MemoryAccess
  destinationOwner : MemoryOwner
  destinationAccess : MemoryAccess

structure ReferenceRecord where
  organizationId : String
  sourceId : String
  targetId : String
  kind : String
  sha256 : String

structure ManifestRecord where
  organizationId : String
  id : String
  sha256 : String
  deriving DecidableEq

structure Counts where
  memories : ℤ
  relations : ℤ
  history : ℤ
  audit : ℤ

structure ManifestInput where
  sourceSchemaVersion : ℤ
  createdAt : String
  organizationMappings : List OrganizationMapping
  entityMappings : EntityMappings
  aclMappings : List AclMapping
  counts : Counts
  records : List ManifestRecord
  references : List ReferenceRecord

def manifestFormat : String := "remembra-tenant-migration"

structure ManifestBody extends ManifestInput where
  format : String := manifestFormat
  manifestVersion : ℤ := 1
  destinationSchemaVersion : ℤ := 4

structure Signature where
  algorithm : String
  value : String

structure TenantMigrationManifest extends ManifestBody where
  signature : Signature

/-- The texts for the first issue that a schema reports. -/
structure Issues where
  created : ManifestBody → String
  envelope : TenantMigrationManifest → String
  body : ManifestBody → String

/-! ### The schema -/

def isSourceLabel (s : String) : Bool :=
  1 ≤ utf16Length s && utf16Length s ≤ 512 && s.toList.all fun c => 32 ≤ c.toNat && c.toNat ≠ 127

def isChecksum (s : String) : Bool := s.toList.length = 64 && s.toList.all isHex

def isShortText (s : String) : Bool := 1 ≤ utf16Length s && utf16Length s ≤ 64

def acceptsMapping (mapping : EntityMapping) : Bool :=
  isSourceLabel mapping.source && isTenantIdText mapping.destination

def acceptsMappings (mappings : List EntityMapping) : Bool :=
  mappings.length ≤ 100000 && mappings.all acceptsMapping

def acceptsReference (r : ReferenceRecord) : Bool :=
  isTenantIdText r.organizationId && isMemoryId r.sourceId && isMemoryId r.targetId &&
    isShortText r.kind && isChecksum r.sha256

def acceptsRecord (r : ManifestRecord) : Bool :=
  isTenantIdText r.organizationId && isMemoryId r.id && isChecksum r.sha256

/-- `manifestBodyShape` -/
def acceptsShape (body : ManifestBody) : Bool :=
  body.format = manifestFormat && body.manifestVersion = 1 && body.destinationSchemaVersion = 4 &&
    (1 ≤ body.sourceSchemaVersion && body.sourceSchemaVersion ≤ 4) && isShortText body.createdAt &&
    (1 ≤ body.organizationMappings.length && body.organizationMappings.length ≤ 100000 &&
      body.organizationMappings.all fun mapping =>
        isSourceLabel mapping.sourceNamespace && isTenantIdText mapping.destination) &&
    acceptsMappings body.entityMappings.users && acceptsMappings body.entityMappings.projects &&
    acceptsMappings body.entityMappings.agents && acceptsMappings body.entityMappings.scopes &&
    body.aclMappings.length ≤ 100000 &&
    (0 ≤ body.counts.memories && 0 ≤ body.counts.relations && 0 ≤ body.counts.history &&
      0 ≤ body.counts.audit) &&
    (body.records.length ≤ 1000000 && body.records.all acceptsRecord) &&
    (body.references.length ≤ 5000000 && body.references.all acceptsReference)

def distinct {α : Type} (f : α → String) (l : List α) : Bool := decide (l.map f).Nodup

def distinctMappings (mappings : List EntityMapping) : Bool :=
  distinct EntityMapping.source mappings && distinct EntityMapping.destination mappings

/-- The key of a record in the check for duplicates. -/
def ManifestRecord.key (r : ManifestRecord) : String := Delimited.join ':' r.organizationId r.id

/-- `manifestBodySchema`: the shape, and what the fields have to do with each other. -/
def acceptsBody (body : ManifestBody) : Bool :=
  acceptsShape body &&
    distinct OrganizationMapping.sourceNamespace body.organizationMappings &&
    distinct OrganizationMapping.destination body.organizationMappings &&
    distinctMappings body.entityMappings.users && distinctMappings body.entityMappings.projects &&
    distinctMappings body.entityMappings.agents && distinctMappings body.entityMappings.scopes &&
    body.counts.memories = body.records.length && body.counts.relations = body.references.length &&
    distinct ManifestRecord.key body.records

/-! ### Signing and verifying -/

def mappingValues (mappings : List EntityMapping) : Yaml :=
  .seq (mappings.map fun mapping =>
    .map [("source", .str mapping.source), ("destination", .str mapping.destination)])

def bodyValue (body : ManifestBody) : Yaml :=
  .map
    [("format", .str body.format), ("manifestVersion", .num (.finite body.manifestVersion)),
      ("sourceSchemaVersion", .num (.finite body.sourceSchemaVersion)),
      ("destinationSchemaVersion", .num (.finite body.destinationSchemaVersion)),
      ("createdAt", .str body.createdAt),
      ("organizationMappings", .seq (body.organizationMappings.map fun mapping =>
        .map [("sourceNamespace", .str mapping.sourceNamespace),
          ("destination", .str mapping.destination)])),
      ("entityMappings", .map [("users", mappingValues body.entityMappings.users),
        ("projects", mappingValues body.entityMappings.projects),
        ("agents", mappingValues body.entityMappings.agents),
        ("scopes", mappingValues body.entityMappings.scopes)]),
      ("aclMappings", .seq (body.aclMappings.map fun mapping =>
        .map [("sourceOwner", textOf mapping.sourceOwner), ("sourceAccess", textOf mapping.sourceAccess),
          ("destinationOwner", textOf mapping.destinationOwner),
          ("destinationAccess", textOf mapping.destinationAccess)])),
      ("counts", .map [("memories", .num (.finite body.counts.memories)),
        ("relations", .num (.finite body.counts.relations)),
        ("history", .num (.finite body.counts.history)), ("audit", .num (.finite body.counts.audit))]),
      ("records", .seq (body.records.map fun r =>
        .map [("organizationId", .str r.organizationId), ("id", .str r.id), ("sha256", .str r.sha256)])),
      ("references", .seq (body.references.map fun r =>
        .map [("organizationId", .str r.organizationId), ("sourceId", .str r.sourceId),
          ("targetId", .str r.targetId), ("kind", .str r.kind), ("sha256", .str r.sha256)]))]

section Signing
variable (P : Platform) (I : Issues)

def bodyWithDefaults (input : ManifestInput) : Except RemembraError ManifestBody :=
  let candidate : ManifestBody := { input with }
  if acceptsBody candidate then .ok candidate
  else .error ⟨.invalidInput, "tenant migration manifest: " ++ I.created candidate⟩

def sign (body : ManifestBody) (key : List UInt8) : Except RemembraError Signature :=
  if key.length = 0 then .error ⟨.invalidInput, "tenant migration manifest: HMAC key must not be empty"⟩
  else .ok ⟨"HMAC-SHA256", P.hmac key (canonicalJson P (bodyValue body))⟩

def createTenantMigrationManifest (input : ManifestInput) (key : List UInt8) :
    Except RemembraError TenantMigrationManifest := do
  let body ← bodyWithDefaults I input
  let signature ← sign P body key
  return { body with signature }

/-- The six bits that a character of the alphabet stands for. -/
def base64urlBits (c : Char) : List Bool :=
  let bits := fun n : ℕ => [n.testBit 5, n.testBit 4, n.testBit 3, n.testBit 2, n.testBit 1, n.testBit 0]
  if c.isUpper then bits (c.toNat - 65)
  else if c.isLower then bits (c.toNat - 71)
  else if c.isDigit then bits (c.toNat + 4)
  else if c = '-' then bits 62
  else if c = '_' then bits 63
  else []

/-- Whole bytes only. -/
def bytesOfBits : List Bool → List (List Bool)
  | b0 :: b1 :: b2 :: b3 :: b4 :: b5 :: b6 :: b7 :: rest =>
    [b0, b1, b2, b3, b4, b5, b6, b7] :: bytesOfBits rest
  | _ => []

/-- `Buffer.from(text, "base64url")` -/
def fromBase64url (text : String) : List (List Bool) :=
  bytesOfBits (text.toList.flatMap base64urlBits)

/-- `signatureSchema` -/
def acceptsSignature (signature : Signature) : Bool :=
  signature.algorithm = "HMAC-SHA256" && signature.value.toList.length = 43 &&
    signature.value.toList.all fun c => c.isAlphanum || c = '_' || c = '-'

def unverified (message : String) : RemembraError :=
  ⟨.snapshotInvalid, "tenant migration manifest: " ++ message⟩

def verifyTenantMigrationManifest (value : TenantMigrationManifest) (key : List UInt8) :
    Except RemembraError TenantMigrationManifest := do
  let body := value.toManifestBody
  if !(acceptsShape body && acceptsSignature value.signature) then
    .error (unverified (I.envelope value))
  if !acceptsBody body then .error (unverified (I.body body))
  if key.length = 0 then .error (unverified "HMAC key is empty")
  let expected ← sign P body key
  if fromBase64url value.signature.value ≠ fromBase64url expected.value then
    .error (unverified "signature verification failed")
  return value

end Signing

end Remembra.TenantMigration
