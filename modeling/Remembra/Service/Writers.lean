import Remembra.Service.Store

/-! The calls that change a stored memory: a user's `update`, `archive`, `revive` and `forget`, the
    edges of `relate` and the job that embeds a memory. Each reads the memory first, and the ones that
    write a whole record spread it over what they have read. -/

namespace Remembra.Service
open Store (Memory MemoryType TrustLevel RetentionMode RelationKind Relation JsNum TenantFilter
  isSafeScope)

/-! ### `update` -/

/-- A patch and its guards, `expectedVersion` and `reason`. -/
structure UpdateInput where
  type : Option MemoryType := none
  content : Option String := none
  scope : Option String := none
  tags : Option (List String) := none
  importance : Option ℤ := none
  source : Option String := none
  confidence : Option ℚ := none
  trust : Option TrustLevel := none
  retention : Option RetentionMode := none
  expectedVersion : Option ℤ := none
  reason : Option String := none

/-- Some field is given. -/
def UpdateInput.hasPatchField (i : UpdateInput) : Bool :=
  i.type.isSome || i.content.isSome || i.scope.isSome || i.tags.isSome || i.importance.isSome ||
    i.source.isSome || i.confidence.isSome || i.trust.isSome || i.retention.isSome

/-- What `UpdateInput.parse` asks of the values beyond their types. -/
def acceptsUpdate (i : UpdateInput) : Bool :=
  i.content.all (· ≠ "") && i.importance.all (fun n => 1 ≤ n && n ≤ 5) &&
    i.confidence.all (fun c => 0 ≤ c && c ≤ 1) && i.expectedVersion.all (1 ≤ ·) &&
    i.scope.all isSafeScope && i.hasPatchField

/-- The fields of an update that are spread over the record. -/
def UpdateInput.fields (i : UpdateInput) : Patch where
  type := i.type
  content := i.content
  scope := i.scope
  tags := i.tags
  importance := i.importance
  source := i.source.map some
  confidence := i.confidence
  trust := i.trust
  retention := i.retention

section Calls
variable (C : Config)

/-- The fields that follow from new content. The policy overwrites the trust only with `unverified`, so
    it is handed the trust that the update gives. -/
def contentFields (existing : Memory) (input : UpdateInput) (content : String) : Act Patch := do
  let tags := input.tags.getD existing.tags
  let cleaned := (redactPair C content tags).map Prod.fst
  let held ← Act.ofRefusal
    (applySensitivePolicy C ⟨cleaned.getD content, input.trust, existing.metaFields⟩)
  let metaFields := if C.injected held.content then
    some (withMeta held.metaFields "injected" (.bool true)) else held.metaFields
  let embedding ← maybeEmbed C held.content
  pure { input.fields with
    content := some held.content
    trust := held.trust
    metaFields := some metaFields
    embedding := some embedding }

/-- The fields that an update spreads over the record. -/
def updateFields (existing : Memory) (input : UpdateInput) : Act Patch :=
  match input.content.filter (· ≠ existing.content) with
  | some content => contentFields C existing input content
  | none => pure input.fields

/-- The instant at which a new trust was set. -/
def revalidated (existing : Memory) (input : UpdateInput) : Act (Option String) :=
  if input.trust.any (· ≠ existing.trust) then do
    let now ← Act.now
    pure (some (C.host.toISOString now))
  else pure none

def update (id : String) (input : UpdateInput) (options : Options) : Act Memory := do
  Act.ensure (acceptsUpdate input) .invalidInput C.inputIssue
  let tenant ← freshTenantFilter C options .write none
  let found ← Act.get id tenant
  let existing ← assertCanRead C found id options
  Act.ensure (!C.agentMode || canUseScope (input.scope.getD existing.scope) options.agent)
    .invalidInput "memory scope is not available to the verified agent context"
  let patch ← updateFields C existing input
  let lastValidated ← revalidated C existing input
  Act.update existing { patch with lastValidated := lastValidated }
    { expectedVersion := input.expectedVersion, reason := input.reason } tenant

/-! ### `archive`, `revive`, `forget` -/

/-- A memory, or `NOT_FOUND`. -/
def orNotFound (id : String) : Option Memory → Act Memory
  | some memory => pure memory
  | none => Act.refuse .notFound ("No memory with id " ++ id)

def archive (id : String) (options : Options) : Act Memory := do
  let tenant ← freshTenantFilter C options .write none
  let found ← Act.get id tenant
  let _ ← assertCanRead C found id options
  let memory ← Act.archive id tenant
  orNotFound id memory

def revive (id : String) (options : Options) : Act Memory := do
  let tenant ← freshTenantFilter C options .write none
  let found ← Act.get id tenant
  let _ ← assertCanRead C found id options
  let memory ← Act.revive id tenant
  orNotFound id memory

/-- `forget` hides a memory that cannot be read only where there are agents or tenants. -/
def assertForgettable (found : Option Memory) (tenant : Option TenantFilter) (id : String)
    (options : Options) : Act Unit :=
  if C.agentMode || tenant.isSome then do
    let _ ← assertCanRead C found id options
    pure ()
  else pure ()

def forget (id : String) (options : Options) : Act Bool := do
  let tenant ← freshTenantFilter C options .write none
  let existing ← Act.get id tenant
  assertForgettable C existing tenant id options
  if existing.isSome then Act.forget id tenant else pure false

/-! ### `relate` -/

inductive RelateAction where
  | add | remove
  deriving DecidableEq

structure RelateInput where
  id : String
  related : List String
  action : RelateAction := .add
  kind : RelationKind := .related

/-- What `RelateInput.parse` asks of the values beyond their types. -/
def acceptsRelate (i : RelateInput) : Bool :=
  i.related ≠ [] && i.related.length ≤ 50 && i.related.all (· ≠ "")

/-- One target of `add`: a new edge, an edge of another kind that takes this one, or no change. -/
def addEdge (kind : RelationKind) (state : List Relation × List String) (rid : String) :
    List Relation × List String :=
  match state.1.find? fun r => r.id = rid with
  | none => (state.1 ++ [⟨rid, kind⟩], state.2 ++ [rid])
  | some edge =>
    if edge.kind ≠ kind then
      -- The edge that `find` returns is the first of its id.
      (state.1.modify (state.1.findIdx fun r => r.id = rid) fun r => { r with kind := kind },
        state.2 ++ [rid])
    else state

/-- The edges after the call, and the ids that were added or removed. -/
def relatedEdges (i : RelateInput) (current : List Relation) : List Relation × List String :=
  match i.action with
  | .add => i.related.foldl (addEdge i.kind) (current, [])
  | .remove => (current.filter fun r => r.id ∉ i.related,
      (current.filter fun r => r.id ∈ i.related).map (·.id))

/-- The targets that are missing or cannot be seen. -/
def missingTarget (options : Options) (tenant : Option TenantFilter) (missing : List String)
    (rid : String) : Act (List String) := do
  let found ← Act.get rid tenant
  match found with
  | none => pure (missing ++ [rid])
  | some target => do
    let visible ← Act.ofRefusal (canRead C.strict C.agentMode target options)
    pure (if visible then missing else missing ++ [rid])

/-- Writes the edges if one was added or removed. -/
def writeEdges (memory : Memory) (tenant : Option TenantFilter)
    (edges : List Relation × List String) : Act Unit :=
  if edges.2 = [] then pure ()
  else do
    let _ ← Act.update memory
      { relations := some (if edges.1 = [] then none else some edges.1) } {} tenant
    pure ()

def relate (i : RelateInput) (options : Options) : Act (List Relation × List String) := do
  Act.ensure (acceptsRelate i) .invalidInput C.inputIssue
  let tenant ← freshTenantFilter C options .write none
  let found ← Act.get i.id tenant
  let memory ← assertCanRead C found i.id options
  Act.ensure (i.id ∉ i.related) .invalidInput "a memory cannot be related to itself"
  let missing ← i.related.foldlM (missingTarget C options tenant) []
  Act.ensure (missing = []) .notFound
    ("related target(s) not found: " ++ ", ".intercalate missing)
  let edges := relatedEdges i (memory.relations.getD [])
  writeEdges memory tenant edges
  pure edges

/-! ### The embedding job -/

/-- `if (signal.aborted) throw new Error("embedding cancelled")` -/
def unlessAborted : Act Unit := do
  let aborted ← Act.aborted
  if aborted then Prog.fail .other else pure ()

/-- Writes the vector into the record that was read. -/
def writeVector (memory : Memory) (tenant : Option TenantFilter) :
    Option (List JsNum) → Act Bool
  | none => pure false
  | some vector => do
    let _ ← Act.update memory { embedding := some (some vector) } {} tenant
    pure true

/-- `embedMemoryJob`; whether the memory was embedded. -/
def embedMemoryJob (id : String) (options : Options) : Act Bool := do
  unlessAborted
  let tenant ← freshTenantFilter C options .write none
  let found ← Act.get id tenant
  let memory ← assertCanRead C found id options
  if !C.embeddings || (memory.embedding.getD []) ≠ [] then pure false
  else do
    let embedding ← maybeEmbed C memory.content
    unlessAborted
    writeVector memory tenant embedding

end Calls

end Remembra.Service
