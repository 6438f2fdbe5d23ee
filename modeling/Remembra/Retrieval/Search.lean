import Remembra.Retrieval.Scores
import Remembra.Service.World

/-! The ranking of a search: `searchQ` scores and orders the memories, takes out those that another one
    replaces or repeats, and selects from the rest what the limit or the budget has room for. -/

namespace Remembra.Retrieval
open Store (Memory MemoryType JsNum Vocabulary truthy)

structure RetrievalPolicy where
  requireRoleTrust : Bool := true
  diversity : Bool := true
  reranking : Bool := false
  fusionWeights : Option PartialWeights := none

structure RetrievalBudget where
  maxItems : Option ℤ := none
  maxTokens : Option ℤ := none
  maxBytes : Option ℤ := none
  maxLatencyMs : Option ℤ := none
  deriving DecidableEq

structure SearchQuery where
  query : Option String := none
  scope : Option String := none
  /-- Nothing here reads it. -/
  type : Option MemoryType := none
  limit : Option ℕ := none
  explain : Bool := false
  candidates : List String := []
  totalDocs : Option ℕ := none
  dedupeExact : Bool := true
  dedupeSameSource : Bool := false
  includeSuperseded : Bool := false
  budget : Option RetrievalBudget := none

structure RetrievalExplanation where
  id : String
  components : List (String × JsNum)
  totalScore : JsNum
  reasons : List String

structure BudgetReport where
  requested : RetrievalBudget
  elapsedMs : JsNum
  items : ℕ
  bytes : ℕ
  truncated : Bool
  truncatedBy : List String

structure SearchResults where
  results : List Memory
  explanations : Option (List RetrievalExplanation) := none
  budget : Option BudgetReport := none

/-! ### Duplicates -/

def isTrailing (c : Char) : Bool := c ∈ ['.', ',', ';', ':', '!', '?']

structure Removal where
  id : String
  keptId : String
  reason : String

structure DedupResult where
  memories : List Memory := []
  removed : List Removal := []

/-- The pass so far, and the first memory with each text and with each text and source. -/
structure DedupState where
  seenText : OrdMap String Memory := .empty
  seenTextAndSource : OrdMap String Memory := .empty
  kept : List Memory := []
  removed : List Removal := []

section Dedup
variable (P : Platform)

def duplicateKey (m : Memory) : String :=
  let text := Jobs.trim (.ofList (Service.collapse Regex.isSpace (P.text.lower m.content).toList))
  .ofList (text.toList.reverse.dropWhile isTrailing).reverse

def sourceKey (m : Memory) : String :=
  let p := m.provenance
  "|".intercalate [Vocabulary.text p.sourceType, p.agentId.getD "", p.conversationId.getD "",
    p.sessionId.getD "", p.runId.getD ""]

/-- One round of the loop over the ranking. -/
def dedupeOne (sameSource : Bool) (st : DedupState) (m : Memory) : DedupState :=
  let text := duplicateKey P m
  if text = "" then { st with kept := st.kept ++ [m] }
  else
    let pairKey := (if sameSource then sourceKey m else "") ++ "\x00" ++ text
    match if sameSource then st.seenTextAndSource.get pairKey else none with
    | some prior => { st with removed := st.removed ++ [⟨m.id, prior.id, "same_source"⟩] }
    | none =>
      match if sameSource then none else st.seenText.get text with
      | some prior => { st with removed := st.removed ++ [⟨m.id, prior.id, "exact"⟩] }
      | none =>
        { seenText := if (st.seenText.get text).isSome then st.seenText else st.seenText.set text m
          seenTextAndSource :=
            if sameSource then st.seenTextAndSource.set pairKey m else st.seenTextAndSource
          kept := st.kept ++ [m]
          removed := st.removed }

def dedupeResults (exact sameSource : Bool) (window : ℕ) (ranked : List Memory) : DedupResult :=
  if !exact && !sameSource then ⟨ranked, []⟩
  else
    let window := max 1 window
    let st := (ranked.take window).foldl (dedupeOne P sameSource) {}
    ⟨st.kept ++ ranked.drop window, st.removed⟩

/-! ### Diversity -/

/-- `lambda` -/
def mmrLambda : JsNum := P.floats.literal (1 / 2)

/-- The largest relevance of what is selected, and the sum of the memory's similarities to it. -/
def mmrSums (queryVec : List JsNum) (embedding : List JsNum) (selected : List Memory) : JsNum × JsNum :=
  selected.foldl (fun sums s =>
    match comparable s queryVec with
    | none => sums
    | some e => (larger sums.1 (cosine P queryVec e), P.floats.add sums.2 (cosine P embedding e)))
    (ofInt 0, ofInt 0)

/-- What a memory is worth next to those that are selected. -/
def mmrValue (queryVec : List JsNum) (selected : List Memory) (m : Memory) : JsNum :=
  let F := P.floats
  match comparable m queryVec with
  | none => F.sub (ofInt 0) (F.mul (mmrLambda P) (ofInt 0))
  | some embedding =>
    let (maxRel, total) := mmrSums P queryVec embedding selected
    let avgSelf := if 0 < selected.length then F.div total (ofNat selected.length) else total
    F.sub maxRel (F.mul (mmrLambda P) avgSelf)

/-- The best value so far and its place; a place counts when it is better than all before. -/
def bestFrom (value : Memory → JsNum) : ℕ → ℕ × JsNum → List Memory → ℕ × JsNum
  | _, best, [] => best
  | i, best, m :: rest =>
    bestFrom value (i + 1) (if less best.2 (value m) then (i, value m) else best) rest

def bestPlace (value : Memory → JsNum) (queue : List Memory) : ℕ × JsNum :=
  bestFrom value 0 (0, .negInfinity) queue

/-- One round: the best of the queue is selected. With an empty queue nothing happens. -/
def mmrRound (queryVec : List JsNum) (s : List Memory × List Memory) : List Memory × List Memory :=
  let i := (bestPlace (mmrValue P queryVec s.1) s.2).1
  (s.1 ++ s.2[i]?.toList, s.2.eraseIdx i)

def mmrDedup (candidates : List Memory) (queryVec : List JsNum) (limit : ℕ) : List Memory :=
  if candidates.length ≤ limit || queryVec = [] then candidates.take limit
  else ((mmrRound P queryVec)^[limit] ([], candidates)).1

end Dedup

/-! ### The budget -/

def RetrievalBudget.named (b : RetrievalBudget) : List (String × Option ℤ) :=
  [("maxItems", b.maxItems), ("maxTokens", b.maxTokens), ("maxBytes", b.maxBytes),
    ("maxLatencyMs", b.maxLatencyMs)]

def assertValidBudget (b : RetrievalBudget) : Except RemembraError Unit :=
  match b.named.find? fun (_, value) => value.any (· < 1) with
  | some (name, _) =>
    .error (invalidInput ("retrieval budget " ++ name ++ " must be a positive integer"))
  | none => .ok ()

/-- What the budget has admitted, its bytes, and what has ended it. -/
structure Admitted where
  kept : List Memory := []
  bytes : ℕ := 0
  truncatedBy : List String := []

section Budget
variable (P : Platform) (elapsed : ℕ → JsNum)

/-- The loop over the selection. The clock is read once for each memory after the first. -/
def admitted (budget : RetrievalBudget) (effectiveLimit : ℕ) : Admitted → List Memory → Admitted
  | a, [] => a
  | a, m :: rest =>
    let size := m.content.utf8ByteSize
    if effectiveLimit ≤ a.kept.length then
      { a with truncatedBy := if budget.maxItems.isSome then ["maxItems"] else [] }
    else if a.kept ≠ [] && budget.maxLatencyMs.any
        (fun ms => atMost (ofInt ms) (elapsed (a.kept.length - 1))) then
      { a with truncatedBy := ["maxLatency"] }
    else if a.kept ≠ [] && budget.maxBytes.any (· < ((a.bytes + size : ℕ) : ℤ)) then
      { a with truncatedBy := ["maxBytes"] }
    else admitted budget effectiveLimit ⟨a.kept ++ [m], a.bytes + size, []⟩ rest

/-- `Math.round(a)` -/
def mathRound : JsNum → JsNum
  | .finite q => ofInt ⌊q + 1 / 2⌋
  | a => a

def applyBudget (budget : RetrievalBudget) (effectiveLimit : ℕ) (ranked : List Memory) :
    List Memory × BudgetReport :=
  let a := admitted elapsed budget effectiveLimit {} ranked
  let truncatedBy := if a.kept.length < ranked.length && a.truncatedBy = [] && budget.maxItems.isSome
    then ["maxItems"] else a.truncatedBy
  (a.kept, {
    requested := budget
    elapsedMs := P.floats.div (mathRound (P.floats.mul (elapsed a.kept.length) (ofInt 10))) (ofInt 10)
    items := a.kept.length
    bytes := a.bytes
    truncated := truncatedBy ≠ []
    truncatedBy := truncatedBy })

end Budget

/-! ### `searchQ` -/

/-- A memory that passes the gates, with its scores. -/
structure ScoredEntry where
  m : Memory
  kwScore : JsNum
  vecScore : JsNum
  scopeScore : ℕ
  reasons : List String

/-- A memory with the score that it is sorted by. -/
structure Merged where
  m : Memory
  final : JsNum
  comp : List (String × JsNum)
  reasons : List String

section SearchQ
variable (P : Platform) (now : ℤ) (memories : List Memory) (q : SearchQuery)
  (queryVec : Option (List JsNum)) (policy : RetrievalPolicy)

def fusionWeights : FusionWeights :=
  match policy.fusionWeights with
  | some w => w.over (defaultFusionWeights P)
  | none => defaultFusionWeights P

/-- The budget's own number of items stands in for the limit. -/
def effectiveLimit : ℕ := ((q.budget.bind (·.maxItems)).map Int.toNat).getD (q.limit.getD 10)

def semanticScore (m : Memory) : JsNum := (queryVec.map (vectorScore P m)).getD (ofInt 0)

/-- The memory's scope is the one that the query names. -/
def inQueryScope (m : Memory) : Bool := (truthy q.scope).any (m.scope = ·)

/-- The memory is hardly similar to the query and has no other reason to be found. -/
def nearZero (m : Memory) : Bool :=
  let vecScore := semanticScore P queryVec m
  less (ofInt 0) vecScore && less vecScore (ofInt 5) &&
    !isStandingInstruction m policy.requireRoleTrust && m.scope ≠ "global" && !inQueryScope q m

/-- The memory passes the scope filter and the gate for similarities near zero. -/
def passesGates (m : Memory) : Bool :=
  applyScopeFilter m q.scope ≠ 0 && !nearZero P q queryVec policy m

def scoreEntry (stats : TermStatistics) (terms : List String) (m : Memory) : ScoredEntry :=
  let kwScore := keywordScore P m terms (defaultLexicalWeights P) stats
  let vecScore := semanticScore P queryVec m
  { m := m, kwScore := kwScore, vecScore := vecScore, scopeScore := applyScopeFilter m q.scope
    reasons := ["scope_match"] ++ (if m.scope = "global" then ["global"] else []) ++
      (if inQueryScope q m then ["scope_exact"] else []) ++
      (if less (ofInt 0) kwScore then ["keyword_hit"] else []) ++
      (if less (ofInt 0) vecScore then ["semantic_hit"] else []) }

/-- Only the seeds, if there are any among the entries. -/
def seeded (scored : List ScoredEntry) : List ScoredEntry :=
  let remaining := scored.filter fun e => e.m.id ∈ q.candidates
  if q.candidates ≠ [] && remaining ≠ [] then remaining else scored

def scoredEntries : List ScoredEntry :=
  let terms := (extractQuery P q.query).1
  let stats := buildTermStatistics P memories terms (ofNat (q.totalDocs.getD memories.length))
  seeded q ((memories.filter (passesGates P q queryVec policy)).map
    (scoreEntry P q queryVec stats terms))

/-- The entries with a score, the best first. -/
def rankedBy (score : ScoredEntry → JsNum) (scored : List ScoredEntry) : List Ranked :=
  let hits := (scored.filter fun e => less (ofInt 0) (score e)).map fun e => (e.m.id, score e)
  hits.mergeSort fun a b => (P.floats.order b.2 a.2).then (P.localeCompare a.1 b.1) ≠ .gt

def mergeEntry (fuse : OrdMap String JsNum) (e : ScoredEntry) : Merged :=
  let F := P.floats
  let weights := fusionWeights P policy
  let fused := (fuse.get e.m.id).getD (ofInt 0)
  let mod := modifierScore P e.m (extractQuery P q.query).2 now weights
  let standing := isStandingInstruction e.m policy.requireRoleTrust
  { m := e.m
    final := applyStandingGate P (F.add (F.add (F.mul fused weights.fusionScale) mod) (ofNat e.scopeScore))
      e.m policy.requireRoleTrust
    comp := [("scope", ofNat e.scopeScore),
        ("fusion", F.div (mathRound (F.mul (F.mul fused weights.fusionScale) (ofInt 100))) (ofInt 100)),
        ("modifiers", mod)] ++
      (if less (ofInt 0) e.kwScore then [("keyword", e.kwScore)] else []) ++
      (if less (ofInt 0) e.vecScore then [("semantic", e.vecScore)] else []) ++
      (if standing then [("standing_gate", ofInt 1000)] else [])
    reasons := e.reasons ++ if standing then ["role_gate"] else [] }

/-- The comparator of the ranking: by score, then the newest, then by id. -/
def compareMerged (a b : Merged) : Ordering :=
  ((P.floats.order b.final a.final).then (P.localeCompare b.m.updatedAt a.m.updatedAt)).then
    (P.localeCompare a.m.id b.m.id)

/-- The sorted entries. -/
def gated : List Merged :=
  let scored := scoredEntries P memories q queryVec policy
  let fuse := fuseScores P (rankedBy P ScoredEntry.kwScore scored)
    (rankedBy P ScoredEntry.vecScore scored) (fusionWeights P policy)
  (scored.map (mergeEntry P now q policy fuse)).mergeSort fun a b => compareMerged P a b ≠ .gt

/-- The similarity that a memory is reranked by. -/
def rerankScore (queryVec : List JsNum) (m : Memory) : JsNum :=
  match comparable m queryVec with
  | some e => cosine P queryVec e
  | none => ofInt (-1)

def rerankWithEmbed (queryVec : List JsNum) (ranked : List Memory) : List Memory :=
  ranked.mergeSort fun a b => P.floats.order (rerankScore P queryVec b) (rerankScore P queryVec a) ≠ .gt

/-- The vector, if there is one with entries. -/
def usableVector : Option (List JsNum) := queryVec.filter (· ≠ [])

/-- The ranking before anything is suppressed. -/
def fullRanking : List Memory :=
  let ranked := (gated P now memories q queryVec policy).map (·.m)
  match usableVector queryVec with
  | some v => if policy.reranking then rerankWithEmbed P v ranked else ranked
  | none => ranked

/-- Another memory of the pool replaces it. -/
def isSuperseded (m : Memory) : Bool :=
  (truthy m.supersededBy).any fun replacement => replacement ∈ memories.map (·.id)

def withoutSuperseded (ranked : List Memory) : List Memory :=
  if q.includeSuperseded then ranked else ranked.filter fun m => !isSuperseded memories m

/-- The ranking after the superseded memories are taken out. -/
def currentRanking : List Memory :=
  withoutSuperseded memories q (fullRanking P now memories q queryVec policy)

def deduped : DedupResult :=
  dedupeResults P q.dedupeExact q.dedupeSameSource (max (effectiveLimit q * 10) 100)
    (currentRanking P now memories q queryVec policy)

/-- What is selected of the ranking: as much as the limit has room for, or all for a budget to cut. -/
def selection (ranked : List Memory) : List Memory :=
  let limit := effectiveLimit q
  match (usableVector queryVec).filter fun _ => policy.diversity && decide (1 < ranked.length) with
  | some v =>
    let count := if q.budget.isSome then ranked.length else limit
    mmrDedup P (ranked.take (max (max (limit * 10) 100) count)) v count
  | none => if q.budget.isSome then ranked else ranked.take limit

def buildExplanation (e : Merged) : RetrievalExplanation where
  id := e.m.id
  components := e.comp
  totalScore := (e.comp.map (·.2)).foldl P.floats.add (ofInt 0)
  reasons := e.reasons

variable (elapsed : ℕ → JsNum)

def searchQ : Except RemembraError SearchResults := do
  q.budget.elim (.ok ()) assertValidBudget
  if policy.fusionWeights.isSome then assertValidFusionWeights (fusionWeights P policy) else .ok ()
  let ranked := (deduped P now memories q queryVec policy).memories
  let selected := selection P q queryVec policy ranked
  let cut := q.budget.map fun budget => applyBudget P elapsed budget (effectiveLimit q) selected
  let results := (cut.map (·.1)).getD selected
  let explained := (gated P now memories q queryVec policy).filter fun e => e.m.id ∈ results.map (·.id)
  .ok { results := results
        explanations := if q.explain then some (explained.map (buildExplanation P)) else none
        budget := cut.map (·.2) }

end SearchQ

/-! ### Relations -/

def dedupeMemories (memories : List Memory) : List Memory :=
  memories.foldl (fun out m => if m.id ∈ out.map (·.id) then out else out ++ [m]) []

/-- What has been reached, what of it was reached last, and the edges that were looked at. -/
structure Expansion where
  selected : List Memory
  visited : List String
  next : List Memory
  edges : ℕ

section Relations
variable (pool : List Memory) (maxEdges : ℕ)

/-- The targets of a memory's relations, and the memories with a relation to it. -/
def neighborIds (m : Memory) : List String :=
  (m.relations.getD []).map (·.id) ++
    pool.flatMap fun n => ((n.relations.getD []).filter (·.id = m.id)).map fun _ => n.id

/-- One edge. Of two memories of the pool with one id, the map has the last one. -/
def expandEdge (st : Expansion) (id : String) : Expansion :=
  if maxEdges ≤ st.edges then st
  else
    let st := { st with edges := st.edges + 1 }
    match if id ∈ st.visited then none else pool.reverse.find? (·.id = id) with
    | none => st
    | some neighbor => { st with
        selected := st.selected ++ [neighbor], visited := st.visited ++ [id]
        next := st.next ++ [neighbor] }

/-- One step in depth. -/
def expandRound (st : Expansion) : Expansion :=
  (st.next.flatMap (neighborIds pool)).foldl (expandEdge pool maxEdges) { st with next := [] }

/-- `expandRelationCandidates`, with its caps of two steps and 128 edges. -/
def expandRelationCandidates (seeds : List Memory) (maxDepth : ℕ) : List Memory :=
  let selected := dedupeMemories seeds
  ((expandRound pool (min 128 maxEdges))^[min 2 maxDepth]
    ⟨selected, selected.map (·.id), selected, 0⟩).selected

end Relations

/-! ### A ranking for examples -/

/-- A platform that computes exactly, for memories of one moment and vectors of length one. -/
def plainPlatform : Platform where
  text := Service.asciiText
  dateParse := Store.newYear.dateParse
  floats := { round := .finite, sqrt := id, log := id, exp2 := fun _ => ofInt 1 }

/-- A fact as it is stored in the first moment of the year. -/
def plainMemory (id content scope : String) : Memory where
  id := id
  type := .fact
  content := content
  scope := scope
  tags := []
  importance := 3
  confidence := 1
  trust := .trusted
  createdAt := "2026-01-01T00:00:00.000Z"
  updatedAt := "2026-01-01T00:00:00.000Z"
  version := 1
  provenance := { sourceType := .manual }

end Remembra.Retrieval
