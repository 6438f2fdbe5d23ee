import Remembra.Retrieval.Search
import Remembra.Service.Expiry
import Remembra.Service.Requests

/-! The service's search, and the batch of searches. A search takes its pool from the candidates of the
    backend, where these are complete, or from all memories, ranks it, and ranks it again with what is
    related to the results. The touches and the decay pass that it starts are not waited for. -/

namespace Remembra.Service
open Store (Memory MemoryType JsNum TenantFilter truthy)
open Retrieval (RetrievalBudget RetrievalPolicy PartialWeights SearchQuery SearchResults searchQ
  RetrievalExplanation BudgetReport)

/-! ### Requests -/

/-- `SearchInput`; a number that its schema lets through is an integer. -/
structure SearchInput where
  query : Option String := none
  scope : Option String := none
  type : Option MemoryType := none
  limit : Option ℕ := none
  explain : Option Bool := none
  includeExpired : Option Bool := none
  includeFuture : Option Bool := none
  includeQuarantined : Option Bool := none
  includeArchived : Option Bool := none
  dedupeExact : Option Bool := none
  dedupeSameSource : Option Bool := none
  includeSuperseded : Option Bool := none
  budget : Option RetrievalBudget := none

def acceptsSearch (input : SearchInput) : Bool :=
  (input.limit.all fun n => 1 ≤ n && n ≤ 50) &&
    input.budget.all fun b => b.named.all fun (_, value) => value.all (0 ≤ ·)

/-- What `search` is called with. -/
structure SearchOptions extends SearchInput where
  candidates : List String := []

def SearchOptions.flags (q : SearchOptions) : SearchFlags where
  includeArchived := q.includeArchived.getD false
  includeExpired := q.includeExpired.getD false
  includeFuture := q.includeFuture.getD false
  includeQuarantined := q.includeQuarantined.getD false

/-- The query of a ranking. -/
def SearchOptions.ranking (q : SearchOptions) (totalDocs : Option ℕ) (candidates : List String) :
    SearchQuery where
  query := q.query
  scope := q.scope
  type := q.type
  limit := q.limit
  explain := q.explain.getD false
  candidates := candidates
  totalDocs := totalDocs
  dedupeExact := q.dedupeExact.getD true
  dedupeSameSource := q.dedupeSameSource.getD false
  includeSuperseded := q.includeSuperseded.getD false
  budget := q.budget

/-! ### The setup -/

/-- The parts of the policy that a search reads. -/
structure SearchPolicy where
  requireTrust : Bool := true
  diversity : Bool := true
  reranking : Bool := true
  relationExpansion : Bool := false
  fusionWeights : Option PartialWeights := none

def SearchPolicy.retrieval (p : SearchPolicy) : RetrievalPolicy where
  requireRoleTrust := p.requireTrust
  diversity := p.diversity
  reranking := p.reranking
  fusionWeights := p.fusionWeights

structure CandidateSearchRequest where
  terms : List String
  scope : Option String
  flags : SearchFlags
  now : ℤ
  resultLimit : ℕ
  maxCandidates : ℕ
  eligible : Memory → Except RemembraError Bool
  tenant : Option TenantFilter
  temporalBoost : Bool

structure CandidateSearchPage where
  memories : List Memory
  /-- The coverage is `complete`. -/
  complete : Bool
  totalDocs : Option ℕ := none

/-- What a search asks: what every call asks, the backend's candidates, and the clock of a ranking, which
    tells what has elapsed at its `n`-th reading. -/
inductive SearchAsk where
  | ask (q : Ask)
  | candidates (request : CandidateSearchRequest)
  | clock

@[reducible] def SearchAsk.Answer : SearchAsk → Type
  | .ask q => q.Answer
  | .candidates _ => Except Thrown CandidateSearchPage
  | .clock => ℕ → JsNum

abbrev Search := Prog SearchAsk SearchAsk.Answer Thrown

/-- A call's part that asks no more than every call. -/
def asked {α : Type} (p : Act α) : Search α := p.through fun q => Prog.request (.ask q)

structure SearchAnswer where
  text : String
  results : List Memory
  explanations : Option (List RetrievalExplanation) := none
  budget : Option BudgetReport := none

inductive ErrorLabel where
  | code (c : ErrorCode)
  /-- `INTERNAL` -/
  | internal
  deriving DecidableEq

/-- A failure as the batch reports it. -/
structure ItemError where
  code : ErrorLabel
  message : String
  deriving DecidableEq

/-- The outcome of an item of a batch of searches. -/
structure SearchOutcome where
  index : ℕ
  result : Except ItemError SearchAnswer

structure SearchConfig extends Config where
  floats : Retrieval.Floats
  policy : SearchPolicy := {}
  /-- The backend has `searchCandidates`. -/
  candidateSearch : Bool := false
  /-- The bytes of an outcome and of a response in JSON. -/
  outcomeBytes : SearchOutcome → ℕ
  responseBytes : List SearchOutcome → ℕ

def SearchConfig.platform (C : SearchConfig) : Retrieval.Platform where
  text := C.text
  dateParse := C.host.dateParse
  floats := C.floats

section Calls
variable (C : SearchConfig)

/-! ### `search` -/

/-- A page that the service relies on. -/
def reliable (request : CandidateSearchRequest) (page : CandidateSearchPage) : Bool :=
  page.complete && page.memories.length ≤ request.maxCandidates &&
    decide (page.memories.map (·.id)).Nodup &&
    page.memories.all fun m => (request.eligible m).toOption = some true

/-- What a search ranks. -/
structure SearchPool where
  queryVec : Option (List JsNum)
  memories : List Memory
  totalDocs : Option ℕ

/-- The backend's candidates, if it may be asked for them and they are complete. -/
def candidatePool (q : SearchOptions) (queryVec : Option (List JsNum)) (tenant : Option TenantFilter)
    (options : Options) (now : ℤ) : Search (Option CandidateSearchPage) :=
  if queryVec.isNone && !C.agentMode && q.type.isNone && decide (q.candidates = []) && C.candidateSearch
  then do
    let (terms, temporal) := Retrieval.extractQuery C.platform q.query
    let request : CandidateSearchRequest := {
      terms := terms
      scope := q.scope
      flags := q.flags
      now := now
      resultLimit := q.limit.getD 10
      maxCandidates := max 16 (min 128 (q.limit.getD 10 * 2))
      eligible := eligible C.toConfig q.flags options now
      tenant := tenant
      temporalBoost := temporal.latestCount.isSome || temporal.recentCount.isSome }
    let answer ← Prog.request (SearchAsk.candidates request)
    pure (answer.toOption.filter (reliable request))
  else pure none

/-- The part of `search` before the ranking. -/
def searchPool (q : SearchOptions) (options : Options) : Search SearchPool := do
  asked assertSearchNotCancelled
  let tenant ← asked (freshTenantFilter C.toConfig options .read none)
  let queryVec ← match (truthy q.query).filter fun _ => C.embeddings with
    | none => pure none
    | some query => do
      let vector ← asked (maybeEmbed C.toConfig query)
      asked assertSearchNotCancelled
      pure vector
  let now ← asked Act.now
  let page ← candidatePool C q queryVec tenant options now
  asked assertSearchNotCancelled
  match page with
  | some page => pure ⟨queryVec, page.memories, page.totalDocs⟩
  | none => do
    let memories ← asked (Act.all q.flags.includeArchived tenant)
    let memories ← asked (Act.ofRefusal (memories.filterM (eligible C.toConfig q.flags options now)))
    pure ⟨queryVec, memories, none⟩

/-- One ranking, at its own time. -/
def rank (q : SearchQuery) (queryVec : Option (List JsNum)) (memories : List Memory) :
    Search SearchResults := do
  let now ← asked Act.now
  let elapsed ← Prog.request SearchAsk.clock
  asked (Act.ofRefusal (searchQ C.platform now memories q queryVec C.policy.retrieval elapsed))

/-- `[id] TYPE (scope: s, importance: n, date)`, and the content below. -/
def searchLine (m : Memory) : String :=
  "[" ++ m.id ++ "] " ++ (Store.Vocabulary.text m.type).toUpper ++ " (scope: " ++ m.scope ++
    ", importance: " ++ toString m.importance ++ ", " ++ .ofList (m.updatedAt.toList.take 10) ++ ")\n" ++
    m.content

/-- What the caller gets of a ranking. -/
def searchAnswer (pool : SearchPool) (ranked : SearchResults) : SearchAnswer :=
  let publicRanked := ranked.results.map fun m => sanitizeMemory m (pool.memories.map (·.id))
  { text := if ranked.results = [] then "No matching memories."
      else "\n\n".intercalate (publicRanked.map searchLine)
    results := publicRanked
    explanations := ranked.explanations
    budget := ranked.budget }

/-- The ranking again, with the memories related to its results, if the policy expands relations. -/
def withRelated (q : SearchOptions) (pool : SearchPool) (first : SearchResults) : Search SearchAnswer :=
  let expanded := Retrieval.expandRelationCandidates pool.memories 32 first.results 1
  if C.policy.relationExpansion && decide (q.candidates = []) &&
      decide (first.results.length < expanded.length) then do
    let reranked ← rank C (q.ranking pool.totalDocs (expanded.map (·.id))) pool.queryVec expanded
    pure (searchAnswer pool reranked)
  else pure (searchAnswer pool first)

def search (q : SearchOptions) (options : Options) : Search SearchAnswer := do
  let pool ← searchPool C q options
  let first ← rank C (q.ranking pool.totalDocs q.candidates) pool.queryVec pool.memories
  withRelated C q pool first

/-! ### The batch -/

def errorLabel : Thrown → ErrorLabel
  | .error e => .code e.code
  | .other => .internal

def publicErrorMessage : Thrown → String
  | .error e =>
    if e.code = .llmError then "The provider request failed."
    else if e.code = .ioError then "The server could not complete the request."
    else e.message
  | .other => "The server could not complete the request."

/-- `batchFailure` -/
def itemError (e : Thrown) : ItemError := ⟨errorLabel e, publicErrorMessage e⟩

/-- `MAX_BATCH_BYTES` -/
def maxBatchBytes : ℕ := 10 * 1024 * 1024

/-- `MAX_BATCH_SEARCH_RESULTS` -/
def maxBatchSearchResults : ℕ := 1000

def acceptsBatchSearch (items : List SearchInput) : Bool :=
  1 ≤ items.length && items.length ≤ maxBatchItems && items.all acceptsSearch &&
    (items.map fun item => item.limit.getD 10).sum ≤ maxBatchSearchResults

def withoutEmbedding (m : Memory) : Memory := { m with embedding := none }

/-- The object that the batch builds of an answer: these fields, and no others. -/
def itemResult (answer : SearchAnswer) : SearchAnswer where
  text := answer.text
  results := answer.results.map withoutEmbedding
  explanations := answer.explanations

/-- `isBatchOutcome`, as far as an outcome of a search can fail it. -/
def isBatchOutcome (outcome : SearchOutcome) : Bool :=
  match outcome.result with
  | .ok _ => true
  | .error e => Jobs.utf16Length e.message ≤ 2048

/-- The loop over the items, with the bytes of the outcomes so far. -/
def searchItems (options : Options) : ℕ → ℕ → List SearchInput → Search (List SearchOutcome)
  | _, _, [] => pure []
  | index, responseBytes, item :: rest => do
    asked assertSearchNotCancelled
    let answer ← (search C { item with } options).attempt
    let outcome : SearchOutcome := ⟨index, (answer.map itemResult).mapError itemError⟩
    asked assertSearchNotCancelled
    let responseBytes := responseBytes + C.outcomeBytes outcome + 1
    asked (Act.ensure (responseBytes ≤ maxBatchBytes) .invalidInput
      ("batch search response exceeds " ++ toString maxBatchBytes ++ " bytes"))
    let outcomes ← searchItems options (index + 1) responseBytes rest
    pure (outcome :: outcomes)

/-- `batch` with a list of searches and without an idempotency key. -/
def batchSearch (fits : Bool) (items : List SearchInput) (options : Options) :
    Search (List SearchOutcome) := do
  asked (Act.ensure (fits && acceptsBatchSearch items) .invalidInput C.inputIssue)
  let outcomes ← searchItems C options 0 0 items
  asked (Act.ensure (C.responseBytes outcomes ≤ maxBatchBytes) .invalidInput
    ("batch search response exceeds " ++ toString maxBatchBytes ++ " bytes"))
  asked (Act.ensure (outcomes.all isBatchOutcome) .serviceUnavailable
    "batch search response failed integrity validation")
  pure outcomes

end Calls

end Remembra.Service
