import Remembra.Lib.Program
import Remembra.Service.Access
import Remembra.Service.Redaction
import Remembra.Sqlite.Backend

/-! What the service asks of its surroundings. A call of the service is a program whose questions are
    its `await`s: the state of recovery, the storage backend and the three provider functions. The
    gate is no question of its own, as nothing comes between it and the call it stands before: a
    question to a provider carries the label that is checked for it, if one is. -/

namespace Remembra.Service
open Store (Memory MemoryType TrustLevel RetentionMode SensitivityBand Relation Yaml JsNum StoreInput
  TenantFilter UpdateOptions)

/-- What is thrown: an error of the service's own, or anything else. -/
inductive Thrown where
  | error (e : RemembraError)
  | other
  deriving DecidableEq

/-- Text functions of the platform. -/
structure TextPlatform where
  /-- `toLowerCase` -/
  lower : String → String
  /-- `\p{L}` or `\p{N}` -/
  isLetterOrNumber : Char → Bool
  /-- `cosine`, in floating point. -/
  cosine : List JsNum → List JsNum → ℚ
  /-- `a.localeCompare(b) <= 0` -/
  localeLe : String → String → Bool

/-- How a service is set up. -/
structure Config where
  /-- The SQLite backend and its platform. -/
  backend : Sqlite.Serial.Config
  text : TextPlatform
  agentMode : Bool := false
  /-- The tenant mode is `strict`. -/
  strict : Bool := false
  redactOn : Bool := false
  /-- `REMEMBRA_REDACT`, as the detector of sensitive data reads it. -/
  redactionEnabled : Bool := false
  sensitiveData : SensitivePolicy := .redact
  lifecycleDefault : RetentionMode := .decaying
  extractionEnabled : Bool := true
  /-- There is an embedding function. -/
  embeddings : Bool := true
  llmName : String := "openai"
  /-- `injectionDetector.scan(text).flagged`, with the operator's own patterns. -/
  injected : String → Bool
  /-- What the schema says about an input it refuses. -/
  inputIssue : String := ""
  archiveAfterDays : ℚ := 90
  archiveTtlDays : ℚ := 365
  /-- The batch limits of the environment are positive integers. -/
  batchLimits : Bool := true
  /-- The request of a batch of stores has at most `MAX_BATCH_BYTES` bytes. -/
  batchFits : List StoreInput → Bool := fun _ => true

def Config.host (C : Config) : Store.Host := C.backend.platform.host

/-- An item that the language model has extracted. -/
structure ExtractedMemory where
  type : MemoryType
  content : String
  tags : List String := []
  importance : ℤ := 3
  scope : Option String := none
  confidence : Option ℚ := none

/-- What the merge function decides. -/
inductive Decision where
  | store
  | skip
  | merge (content : String)
  deriving DecidableEq

/-- The fields that are spread over a record, `{ ...memory, ...fields }`; the inner option of a field
    that may be absent is the value written. -/
structure Patch where
  type : Option MemoryType := none
  content : Option String := none
  scope : Option String := none
  tags : Option (List String) := none
  importance : Option ℤ := none
  source : Option (Option String) := none
  confidence : Option ℚ := none
  trust : Option TrustLevel := none
  retention : Option RetentionMode := none
  relations : Option (Option (List Relation)) := none
  metaFields : Option (Option (List (String × Yaml))) := none
  embedding : Option (Option (List JsNum)) := none
  lastValidated : Option String := none

/-- The record with the fields of the patch. -/
def Patch.over (p : Patch) (m : Memory) : Memory :=
  { m with
    type := p.type.getD m.type
    content := p.content.getD m.content
    scope := p.scope.getD m.scope
    tags := p.tags.getD m.tags
    importance := p.importance.getD m.importance
    source := p.source.getD m.source
    confidence := p.confidence.getD m.confidence
    trust := p.trust.getD m.trust
    retention := p.retention.or m.retention
    relations := p.relations.getD m.relations
    metaFields := p.metaFields.getD m.metaFields
    embedding := p.embedding.getD m.embedding
    lastValidated := p.lastValidated.or m.lastValidated }

inductive Ask where
  /-- `Date.now()` -/
  | now
  /-- The restore gate and, for a write, the recovery state let the call pass. -/
  | mayProceed (write : Bool)
  /-- `refreshDurableRecoveryState` alone -/
  | refresh
  | verifyContext (context : TenantContext)
  | get (id : String) (tenant : Option TenantFilter)
  | all (includeArchived : Bool) (tenant : Option TenantFilter)
  | store (input : StoreInput) (embedding : Option (List JsNum)) (tenant : Option TenantFilter)
  /-- `update({ ...base, ...patch }, options, tenant)` -/
  | update (base : Memory) (patch : Patch) (options : UpdateOptions) (tenant : Option TenantFilter)
  | archive (id : String) (tenant : Option TenantFilter)
  | revive (id : String) (tenant : Option TenantFilter)
  | forget (id : String) (tenant : Option TenantFilter)
  | embed (gate : Option SensitivityBand) (text : String)
  | extract (gate : Option SensitivityBand) (transcript : String)
  | merge (newContent : String) (type : MemoryType) (content : String)
  /-- `signal.aborted` -/
  | aborted

@[reducible] def Ask.Answer : Ask → Type
  | .now => ℤ
  | .mayProceed _ => Except Thrown Unit
  | .refresh => Except Thrown Unit
  | .verifyContext _ => Bool
  | .get .. => Option Memory
  | .all .. => List Memory
  | .store .. => Except Thrown Memory
  | .update .. => Except Thrown Memory
  | .archive .. => Except Thrown (Option Memory)
  | .revive .. => Except Thrown (Option Memory)
  | .forget .. => Except Thrown Bool
  | .embed .. => Except Thrown (List JsNum)
  | .extract .. => Except Thrown (List ExtractedMemory)
  | .merge .. => Except Thrown Decision
  | .aborted => Bool

/-- A call of the service. -/
abbrev Act := Prog Ask Ask.Answer Thrown

/-- The program without its result. -/
def ignoring {α : Type} (p : Act α) : Act Unit := p >>= fun _ => pure ()

namespace Act

def ask (q : Ask) : Act q.Answer := Prog.request q

/-- `throw new RemembraError(code, message)` -/
def refuse {α : Type} (code : ErrorCode) (message : String) : Act α :=
  Prog.fail (.error ⟨code, message⟩)

/-- `if (!condition) throw new RemembraError(code, message)` -/
def ensure (condition : Bool) (code : ErrorCode) (message : String) : Act Unit :=
  if condition then pure () else refuse code message

def ofRefusal {α : Type} (r : Except RemembraError α) : Act α :=
  Prog.ofExcept (r.mapError .error)

def now : Act ℤ := ask .now
def aborted : Act Bool := ask .aborted
def get (id : String) (tenant : Option TenantFilter) : Act (Option Memory) :=
  ask (.get id tenant)
def all (includeArchived : Bool) (tenant : Option TenantFilter) : Act (List Memory) :=
  ask (.all includeArchived tenant)
def store (input : StoreInput) (embedding : Option (List JsNum)) (tenant : Option TenantFilter) :
    Act Memory :=
  ask (.store input embedding tenant) >>= Prog.ofExcept
def archive (id : String) (tenant : Option TenantFilter) : Act (Option Memory) :=
  ask (.archive id tenant) >>= Prog.ofExcept
def revive (id : String) (tenant : Option TenantFilter) : Act (Option Memory) :=
  ask (.revive id tenant) >>= Prog.ofExcept
def forget (id : String) (tenant : Option TenantFilter) : Act Bool :=
  ask (.forget id tenant) >>= Prog.ofExcept
def update (base : Memory) (patch : Patch) (options : UpdateOptions)
    (tenant : Option TenantFilter) : Act Memory :=
  ask (.update base patch options tenant) >>= Prog.ofExcept

end Act

/-! ### Helpers that every call uses -/

section Helpers
variable (C : Config)

def freshTenantFilter (options : Options) (capability : Capability)
    (operation : Option AuthorizationOperation) : Act (Option TenantFilter) := do
  Prog.ofExcept (← Act.ask (.mayProceed (capability = .write)))
  let filter ← Act.ofRefusal (tenantFilter C.strict options capability operation)
  match filter, options.tenant with
  | some filter, some context => do
    let valid ← Act.ask (.verifyContext context)
    Act.ensure valid .tenantRequired "tenant membership is no longer valid"
    pure (some filter)
  | filter, _ => pure filter

/-- `memories.filter((m) => this.canRead(m, options))` -/
def readable (options : Options) (memories : List Memory) : Act (List Memory) :=
  Act.ofRefusal (memories.filterM fun m => canRead C.strict C.agentMode m options)

def assertCanRead (memory : Option Memory) (id : String) (options : Options) : Act Memory :=
  match memory with
  | none => Act.refuse .notFound ("No memory with id " ++ id)
  | some memory => do
    let visible ← Act.ofRefusal (canRead C.strict C.agentMode memory options)
    Act.ensure visible .notFound ("No memory with id " ++ id)
    pure memory

/-- A refusal is thrown on; any other failure of the provider is no vector. -/
def orNone {α : Type} : Except Thrown α → Except Thrown (Option α)
  | .ok a => .ok (some a)
  | .error (.error e) => if e.code = .tenantRequired then .error (.error e) else .ok none
  | .error .other => .ok none

/-- `maybeEmbed`, with the label it has where the caller gives none: every caller leaves it out. -/
def maybeEmbed (text : String) : Act (Option (List JsNum)) :=
  if C.embeddings then do
    let answer ← Act.ask (.embed (some .internal) text)
    Prog.ofExcept (orNone answer)
  else pure none

end Helpers

end Remembra.Service
