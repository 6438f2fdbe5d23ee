import Remembra.Service.Asks

/-! `store`, and the batch of stores: the checks on an input, what is taken out of it, its vector and
    the record. -/

namespace Remembra.Service
open Store (Memory TrustLevel Provenance ProvenanceInput Yaml JsNum StoreInput TenantFilter
  Vocabulary isSafeScope defaultOwner truthy)

/-! ### The schema -/

/-- What `StoreInput.parse` asks of the values beyond their types. -/
def acceptsInput (h : Store.Host) (input : StoreInput) : Bool :=
  input.content ≠ "" && 1 ≤ input.importance && input.importance ≤ 5 &&
    input.confidence.all (fun c => 0 ≤ c && c ≤ 1) && Sqlite.usableInstants h input &&
    isSafeScope input.scope

theorem acceptsInput_iff {h : Store.Host} {input : StoreInput} :
    acceptsInput h input = true ↔ input.Accepted h := by
  constructor
  · intro haccepts
    simp only [acceptsInput, Sqlite.usableInstants, Bool.and_eq_true, decide_eq_true_eq,
      Option.all_eq_true] at haccepts
    obtain ⟨⟨⟨⟨⟨hcontent, hlow⟩, hhigh⟩, hconfidence⟩, ⟨hfrom, huntil⟩, hobserved⟩, hscope⟩ := haccepts
    exact ⟨hcontent, ⟨hlow, hhigh⟩, hconfidence, hfrom, huntil, hobserved, hscope⟩
  · rintro ⟨hcontent, ⟨hlow, hhigh⟩, hconfidence, hfrom, huntil, hobserved, hscope⟩
    simp only [acceptsInput, Sqlite.usableInstants, Bool.and_eq_true, decide_eq_true_eq,
      Option.all_eq_true]
    exact ⟨⟨⟨⟨⟨hcontent, hlow⟩, hhigh⟩, hconfidence⟩, ⟨hfrom, huntil⟩, hobserved⟩, hscope⟩

/-! ### Attribution -/

/-- The provenance as a part of an input. -/
def provenanceInput (p : Provenance) : ProvenanceInput where
  sourceType := some p.sourceType
  sessionId := p.sessionId
  messageId := p.messageId
  agentId := p.agentId
  agentType := p.agentType
  agentVersion := p.agentVersion
  conversationId := p.conversationId
  taskId := p.taskId
  runId := p.runId
  provider := p.provider

/-- `{ sourceType: rawSourceType ?? "manual", ...provenanceFields }` -/
def rawProvenance (p : Option ProvenanceInput) : Provenance where
  sourceType := (p.bind (·.sourceType)).getD .manual
  sessionId := p.bind (·.sessionId)
  messageId := p.bind (·.messageId)
  agentId := p.bind (·.agentId)
  agentType := p.bind (·.agentType)
  agentVersion := p.bind (·.agentVersion)
  conversationId := p.bind (·.conversationId)
  taskId := p.bind (·.taskId)
  runId := p.bind (·.runId)
  provider := p.bind (·.provider)

/-- The attributed keys of a provenance, each beside the value of the verified context. -/
def attributed (p : Provenance) (c : Option AgentContext) : List (Option String × Option String) := [
  (p.agentId, c.map (·.agentId)), (p.agentType, c.bind (·.agentType)),
  (p.agentVersion, c.bind (·.agentVersion)), (p.conversationId, c.bind (·.conversationId)),
  (p.taskId, c.bind (·.taskId)), (p.runId, c.bind (·.runId))]

/-- The provenance with the verified agent's attribution. -/
def canonicalProvenance (p : Provenance) (context : AgentContext) : Provenance :=
  { p with
    sourceType := if p.sourceType ∈ [.conversation, .system, .import] then p.sourceType else .agent
    agentId := some context.agentId
    agentType := (truthy context.agentType).or p.agentType
    agentVersion := (truthy context.agentVersion).or p.agentVersion
    conversationId := (truthy context.conversationId).or p.conversationId
    taskId := (truthy context.taskId).or p.taskId
    runId := (truthy context.runId).or p.runId }

section Checks
variable (C : Config)

def canonicalizeAgentInput (input : StoreInput) (options : Options) :
    Except RemembraError StoreInput :=
  let provenance := rawProvenance input.provenance
  let input := { input with
    retention := input.retention.or (some C.lifecycleDefault)
    access := input.access.or (some (Store.defaultAccess C.backend.platform.access)) }
  if !C.agentMode then
    .ok { input with owner := input.owner.or (some (defaultOwner provenance)) }
  else match options.agent with
    | none =>
      if provenance.sourceType = .agent ||
          (attributed provenance none).any fun (supplied, _) => supplied.isSome then
        .error ⟨.invalidInput, "agent attribution requires a verified agent context"⟩
      else .ok { input with
        provenance := some (provenanceInput provenance)
        owner := input.owner.or (some (defaultOwner provenance)) }
    | some context =>
      if (attributed provenance (some context)).any fun (supplied, verified) =>
          supplied.isSome && supplied ≠ verified then
        .error ⟨.invalidInput, "agent attribution conflicts with the verified agent context"⟩
      else
        let canonical := canonicalProvenance provenance context
        .ok { input with
          provenance := some (provenanceInput canonical)
          owner := input.owner.or (some (defaultOwner canonical)) }

def assertAgentWrite (input : StoreInput) (options : Options) : Except RemembraError Unit :=
  let requiresAgentIdentity := input.access = some .isPrivate || input.owner = some .agent ||
    (input.provenance.bind (·.sourceType)) = some .agent
  let verifiedId := (truthy (options.agent.map (·.agentId)))
  if !C.agentMode then .ok ()
  else if input.scope ≠ "global" && !canUseScope input.scope options.agent then
    .error ⟨.invalidInput, "memory scope is not available to the verified agent context"⟩
  else if !requiresAgentIdentity then .ok ()
  else if verifiedId.isNone || input.provenance.bind (·.agentId) ≠ verifiedId ||
      !canUseScope input.scope options.agent then
    .error ⟨.invalidInput,
      "private or agent-owned memory requires a matching verified agent context"⟩
  else .ok ()

/-! ### References -/

/-- The texts under a key of `meta` that holds a list. -/
def metaTexts (metaFields : Option (List (String × Yaml))) (key : String) : List String :=
  match (metaFields.getD []).lookup key with
  | some (.seq items) => items.filterMap fun
    | .str s => some s
    | _ => none
  | _ => []

/-- The reference's target is there and visible. -/
def assertTarget (options : Options) (tenant : TenantFilter) (id : String) : Act Unit := do
  let found ← Act.get id (some tenant)
  match found with
  | none => Act.refuse .notFound "reference target not found in the authorized tenant"
  | some target => do
    let visible ← Act.ofRefusal (canRead C.strict C.agentMode target options)
    Act.ensure visible .notFound "reference target not found in the authorized tenant"

def assertTenantReferences (ids : List String) (options : Options) (tenant : Option TenantFilter) :
    Act Unit :=
  match tenant with
  | none => pure ()
  | some tenant => Prog.each ids.eraseDups (assertTarget C options tenant)

/-- The references of an input. -/
def inputReferences (input : StoreInput) : List String :=
  (truthy input.supersededBy).toList ++ metaTexts input.metaFields "compressedFrom"

/-! ### What is taken out -/

/-- `{ ...meta, [key]: value }` -/
def withMeta (metaFields : Option (List (String × Yaml))) (key : String) (value : Yaml) :
    List (String × Yaml) :=
  let fields := metaFields.getD []
  if (fields.lookup key).isSome then
    fields.map fun (k, v) => if k = key then (k, value) else (k, v)
  else fields ++ [(key, value)]

/-- `redactPair`; none when redaction is off or finds nothing. -/
def redactPair (content : String) (tags : List String) : Option (String × List String) :=
  if !C.redactOn then none
  else if (redact content).2 = [] && (redactTags tags).2 = [] then none
  else some ((redact content).1, (redactTags tags).1)

def applyRedaction (input : StoreInput) : StoreInput :=
  match redactPair C input.content input.tags with
  | none => input
  | some (content, tags) => { input with content := content, tags := tags }

/-- The fields of a record that the policy looks at and changes. -/
structure Held where
  content : String
  trust : Option TrustLevel
  metaFields : Option (List (String × Yaml))

def applySensitivePolicy (x : Held) : Except RemembraError Held :=
  let sensitive := scan C.sensitiveData C.redactionEnabled x.content
  if !sensitive.detected then .ok x
  else match sensitive.action with
    | .reject => .error ⟨.sensitiveData,
        "Sensitive data detected (" ++ ", ".intercalate sensitive.categories ++ ")"⟩
    | .quarantine => .ok {
        content := sensitive.text
        trust := some .unverified
        metaFields := some (withMeta x.metaFields "quarantined" (.bool true)) }
    | .redact => .ok { x with content := sensitive.text }
    | .allow => .ok x

/-- `applySensitivePolicy` of an input. -/
def applyInputPolicy (input : StoreInput) : Except RemembraError StoreInput :=
  (applySensitivePolicy C ⟨input.content, input.trust, input.metaFields⟩).map fun x =>
    { input with content := x.content, trust := x.trust, metaFields := x.metaFields }

/-- The flag of the injection detector. -/
def flagInjection (input : StoreInput) : StoreInput :=
  if C.injected input.content then
    { input with metaFields := some (withMeta input.metaFields "injected" (.bool true)) }
  else input

/-! ### Calls -/

structure Stored where
  id : String
  message : String
  memory : Memory

def storedMessage (m : Memory) : String :=
  "Stored " ++ Vocabulary.text m.type ++ " memory " ++ m.id ++ " (scope: " ++ m.scope ++ ")"

/-- The checks of `store` before it asks anything. -/
def checkedInput (input : StoreInput) (options : Options) : Except RemembraError StoreInput :=
  if !acceptsInput C.host input then .error ⟨.invalidInput, C.inputIssue⟩
  else (canonicalizeAgentInput C input options).bind fun parsed =>
    (assertAgentWrite C parsed options).map fun _ => parsed

/-- The checks change nothing but the attribution and the defaults. -/
theorem checked_fields {i parsed : StoreInput} {options : Options}
    (h : checkedInput C i options = .ok parsed) : ∃ retention access provenance owner,
      parsed = { i with
        retention := retention, access := access, provenance := provenance, owner := owner } := by
  unfold checkedInput at h
  split at h
  · cases h
  cases hcanonical : canonicalizeAgentInput C i options with
  | error e =>
    rw [hcanonical] at h
    cases h
  | ok canonical =>
    rw [hcanonical] at h
    cases hwrite : assertAgentWrite C canonical options with
    | error e => simp [Except.bind, hwrite, Except.map] at h
    | ok u =>
      simp only [Except.bind, hwrite, Except.map, Except.ok.injEq] at h
      subst h
      unfold canonicalizeAgentInput at hcanonical
      dsimp only at hcanonical
      split at hcanonical
      · cases hcanonical
        exact ⟨_, _, _, _, rfl⟩
      split at hcanonical
      · split at hcanonical
        · cases hcanonical
        · cases hcanonical
          exact ⟨_, _, _, _, rfl⟩
      · split at hcanonical
        · cases hcanonical
        · cases hcanonical
          exact ⟨_, _, _, _, rfl⟩

/-- The input as it is embedded and stored. -/
def cleanedInput (input : StoreInput) : Except RemembraError StoreInput :=
  (applyInputPolicy C (if C.redactOn then applyRedaction C input else input)).map (flagInjection C)

/-- A tenant's principal may write what its filter names. -/
def assertMayWrite (options : Options) (tenant : Option TenantFilter) : Except RemembraError Unit :=
  match tenant with
  | none => .ok ()
  | some t => assertAuthorized options.tenant .memoryWrite (some (filterResource t))

/-- The vector of the content, or the one that was handed in. -/
def vectorOf (content : String) : Option (Option (List JsNum)) → Act (Option (List JsNum))
  | none => maybeEmbed C content
  | some vector => pure vector

/-- `store`; the inner option of the override is a vector or `null`. -/
def store (input : StoreInput) (options : Options)
    (embeddingOverride : Option (Option (List JsNum))) : Act Stored := do
  let parsed ← Act.ofRefusal (checkedInput C input options)
  let tenant ← freshTenantFilter C options .write none
  Act.ofRefusal (assertMayWrite options tenant)
  assertTenantReferences C (inputReferences parsed) options tenant
  let parsed ← Act.ofRefusal (cleanedInput C parsed)
  let embedding ← vectorOf C parsed.content embeddingOverride
  let memory ← Act.store parsed embedding tenant
  Act.ensure (tenant.all (Store.memoryBelongsToTenant memory)) .tenantRequired
    "tenant backend did not preserve the trusted organization"
  pure ⟨memory.id, storedMessage memory, memory⟩

/-! ### Batch -/

/-- An item's outcome: its id and message, or what it failed with. -/
structure BatchOutcome where
  index : ℕ
  result : Except Thrown (String × String)

/-- The vectors may be computed before the items are stored. -/
def precomputes (items : List StoreInput) (options : Options) : Bool :=
  C.embeddings && !C.redactOn && !C.strict && options.tenant.isNone && !items.any fun item =>
    let scanned := scan C.sensitiveData C.redactionEnabled item.content
    scanned.detected && scanned.action = .reject

/-- `embedTexts` with the service's own function: a text that fails has no vector. -/
def embedTexts : List String → Act (List (Option (List JsNum)))
  | [] => pure []
  | text :: texts => do
    let answer ← Act.ask (.embed none text)
    let vectors ← embedTexts texts
    pure (answer.toOption :: vectors)

/-- The vectors that are handed to `store`, item by item; none where they were not computed. -/
def precomputed (items : List StoreInput) (options : Options) :
    Act (List (Option (Option (List JsNum)))) :=
  if precomputes C items options && C.batchLimits then do
    let vectors ← embedTexts (items.map (·.content))
    pure (vectors.map some)
  else pure (items.map fun _ => none)

/-- One item after another; a failure is the item's outcome. -/
def storeItems (options : Options) :
    ℕ → List (StoreInput × Option (Option (List JsNum))) → Act (List BatchOutcome)
  | _, [] => pure []
  | index, (item, override) :: rest => do
    let result ← (store C item options override).attempt
    let outcomes ← storeItems options (index + 1) rest
    pure (⟨index, result.map fun s => (s.id, s.message)⟩ :: outcomes)

/-- `execute` of a batch of stores. -/
def batchStore (items : List StoreInput) (options : Options) : Act (List BatchOutcome) := do
  let overrides ← precomputed C items options
  storeItems C options 0 (items.zip overrides)

/-- `MAX_BATCH_ITEMS` -/
def maxBatchItems : ℕ := 100

/-- `BatchRequest.parse`, and the bound on the bytes before it. -/
def batchRequest (items : List StoreInput) : Except RemembraError Unit :=
  if C.batchFits items && 1 ≤ items.length && items.length ≤ maxBatchItems &&
      items.all (acceptsInput C.host) then .ok ()
  else .error ⟨.invalidInput, C.inputIssue⟩

/-- `batch` with a list of stores and without an idempotency key. -/
def batch (items : List StoreInput) (options : Options) : Act (List BatchOutcome) := do
  Act.ofRefusal (batchRequest C items)
  Prog.ofExcept (← Act.ask .refresh)
  batchStore C items options

end Checks

end Remembra.Service
