import Remembra.Service.Maintain

/-! The calls that hand memories to a language model: the digest of a transcript with its loop over the
    extracted items, the compression of a set of memories and the vector of a search query. -/

namespace Remembra.Service
open Store (Memory MemoryType JsNum StoreInput TenantFilter Vocabulary)

/-! ### Sameness of texts -/

/-- Each run of characters of the class as one blank. -/
def collapse (p : Char → Bool) : List Char → List Char
  | [] => []
  | c :: l =>
    if p c then if l.head?.any p then collapse p l else ' ' :: collapse p l
    else c :: collapse p l

/-- The code units of a text in UTF-16. -/
def codeUnits (s : String) : List ℕ :=
  s.toList.flatMap fun c =>
    if c.toNat < 0x10000 then [c.toNat]
    else [0xd800 + (c.toNat - 0x10000) / 0x400, 0xdc00 + (c.toNat - 0x10000) % 0x400]

/-- `match(/\d+/g)` -/
def numbers (s : String) : List (List Char) :=
  (s.toList.splitBy fun a b => a.isDigit == b.isDigit).filter fun run => run.head?.any Char.isDigit

/-- `split(/\s+/)`, without empty parts. -/
def words (s : String) : List String :=
  ((s.toList.splitBy fun a b => Regex.isSpace a == Regex.isSpace b).filter fun run =>
    run.head?.any fun c => !Regex.isSpace c).map String.ofList

def bigrams (l : List ℕ) : List (ℕ × ℕ) := l.zip l.tail

/-- `diceBigrams(a, b) >= 0.9` -/
def diceNear (a b : List ℕ) : Bool :=
  let overlap := ((bigrams a).eraseDups.map fun g =>
    min ((bigrams a).count g) ((bigrams b).count g)).sum
  bigrams a ≠ [] && bigrams b ≠ [] &&
    9 * ((bigrams a).length + (bigrams b).length) ≤ 20 * overlap

section Texts
variable (C : Config)

def dedupKey (type : MemoryType) (content scope : String) : String :=
  Vocabulary.text type ++ "|" ++ scope ++ "|" ++
    Jobs.trim (.ofList (collapse Regex.isSpace (C.text.lower content).toList))

def normalizeForFuzzy (s : String) : String :=
  Jobs.trim (.ofList (collapse Regex.isSpace
    (collapse (fun c => !C.text.isLetterOrNumber c) (C.text.lower s).toList)))

def nearDuplicate (a b : String) : Bool :=
  let na := normalizeForFuzzy C a
  let nb := normalizeForFuzzy C b
  if na = nb then true
  else if numbers na ≠ numbers nb then false
  else if (codeUnits na).length < 8 || (codeUnits nb).length < 8 then false
  else diceNear (codeUnits na) (codeUnits nb)

def candidateSimilarity (newContent : String) (m : Memory) (itemVec : Option (List JsNum)) : ℚ :=
  match itemVec, m.embedding with
  | some v, some e => if e.length = v.length then max 0 (C.text.cosine v e) else overlap
  | _, _ => overlap
where
  overlap : ℚ :=
    let terms := ((words (C.text.lower newContent)).filter fun t =>
      3 < (codeUnits t).length).eraseDups
    if terms = [] then 0
    else ((terms.filter fun t => includes (C.text.lower m.content) t).length : ℚ) / terms.length

/-- The candidate with the highest similarity so far, the earliest of equals. -/
def betterCandidate (newContent : String) (itemVec : Option (List JsNum))
    (best : Option Memory × ℚ) (m : Memory) : Option Memory × ℚ :=
  if candidateSimilarity C newContent m itemVec > best.2 then
    (some m, candidateSimilarity C newContent m itemVec)
  else best

def findCandidate (item : ExtractedMemory) (scope : String) (pool : List Memory)
    (itemVec : Option (List JsNum)) : Option Memory :=
  let best := (pool.filter fun m => m.type = item.type && m.scope = scope).foldl
    (betterCandidate C item.content itemVec) (none, 0)
  if 2 / 5 ≤ best.2 then best.1 else none

/-! ### The digest -/

structure DigestInput where
  transcript : String
  scope : Option String := none
  source : Option String := none

/-- What the loop keeps: `seen` is a set, `active` grows by what is stored. -/
structure DigestState where
  active : List Memory
  seen : List String
  stored : List Memory := []
  skippedDuplicates : ℕ := 0
  merged : ℕ := 0

def DigestState.skip (st : DigestState) : DigestState :=
  { st with skippedDuplicates := st.skippedDuplicates + 1 }

/-- The item has been answered by reviving a memory. -/
def DigestState.revived (st : DigestState) (key : String) : DigestState :=
  { st with seen := key :: st.seen, merged := st.merged + 1 }

/-- The dedup set is indexed against the new content of the candidate. -/
def DigestState.remerged (st : DigestState) (before after : String) : DigestState :=
  { st with seen := after :: st.seen.filter (· ≠ before), merged := st.merged + 1 }

def DigestState.push (st : DigestState) (key : String) (m : Memory) : DigestState :=
  { st with
    seen := key :: st.seen
    stored := st.stored ++ [m]
    active := st.active ++ [m] }

def mergeReason : String := "digest merge (superseded by a newer extraction)"

/-- An item after redaction, as it goes through the loop. -/
def cleanItem (item : ExtractedMemory) : ExtractedMemory :=
  match redactPair C item.content item.tags with
  | none => item
  | some (content, tags) => { item with content := content, tags := tags }

/-- The input with which an item is stored. -/
def digestStoreInput (input : DigestInput) (options : Options) (item : ExtractedMemory)
    (scope : String) : StoreInput where
  type := item.type
  content := item.content
  scope := scope
  tags := item.tags
  importance := item.importance
  source := input.source
  confidence := item.confidence
  provenance := some {
    sourceType := some .conversation
    provider := some C.llmName
    agentId := Store.truthy (options.agent.map (·.agentId))
    agentType := Store.truthy (options.agent.bind (·.agentType))
    agentVersion := Store.truthy (options.agent.bind (·.agentVersion))
    conversationId := Store.truthy (options.agent.bind (·.conversationId))
    taskId := Store.truthy (options.agent.bind (·.taskId))
    runId := Store.truthy (options.agent.bind (·.runId)) }

/-- Stores the item fresh. -/
def digestStore (input : DigestInput) (options : Options) (item : ExtractedMemory)
    (scope key : String) (st : DigestState) : Act DigestState := do
  let stored ← store C (digestStoreInput C input options item scope) options none
  pure (st.push key stored.memory)

/-- Writes the merged content over the candidate, as the loop has it. -/
def digestMerge (input : DigestInput) (tenant : Option TenantFilter) (candidate : Memory)
    (merged : String) (st : DigestState) : Act DigestState := do
  let content := ((redactPair C merged []).map Prod.fst).getD merged
  let embedding ← maybeEmbed C content
  let _ ← Act.update candidate
    { content := some content, embedding := some embedding, source := input.source.map some }
    { reason := some mergeReason } tenant
  pure (st.remerged (dedupKey C candidate.type candidate.content candidate.scope)
    (dedupKey C candidate.type content candidate.scope))

/-- The item that no memory is a duplicate of: the language model decides, where there is a candidate. -/
def digestDecide (input : DigestInput) (options : Options) (tenant : Option TenantFilter)
    (archived : List Memory) (item : ExtractedMemory) (scope key : String) (st : DigestState) :
    Act DigestState := do
  let itemVec ← maybeEmbed C item.content
  match findCandidate C item scope (st.active ++ archived) itemVec with
  | none => digestStore C input options item scope key st
  | some candidate => do
    let decision ← Act.ask (.merge item.content candidate.type candidate.content)
    match decision with
    | .ok .skip => pure st.skip
    | .ok (.merge merged) => digestMerge C input tenant candidate merged st
    | .ok .store => digestStore C input options item scope key st
    -- A merge that fails must not lose the fact.
    | .error _ => digestStore C input options item scope key st

/-- Revives the memory, if there is one; false if the backend had nothing to revive. -/
def reviveFound (found : Option Memory) (tenant : Option TenantFilter) : Act Bool :=
  match found with
  | none => pure false
  | some m => do
    let revived ← Act.revive m.id tenant
    pure revived.isSome

/-- The resolved scope of an item. -/
def itemScope (input : DigestInput) (item : ExtractedMemory) : String :=
  item.scope.getD (input.scope.getD "global")

/-- The archived memory that would be the same text, were it in the item's scope. -/
def archivedDup (archived : List Memory) (scope key : String) : Option Memory :=
  archived.find? fun m => dedupKey C m.type m.content scope = key

/-- The memory of the item's type and scope with nearly its text. -/
def fuzzy (item : ExtractedMemory) (scope : String) (memories : List Memory) : Option Memory :=
  memories.find? fun m => m.type = item.type && m.scope = scope &&
    nearDuplicate C item.content m.content

/-- The item whose key is new. -/
def digestFresh (input : DigestInput) (options : Options) (tenant : Option TenantFilter)
    (archived : List Memory) (item : ExtractedMemory) (scope key : String) (st : DigestState) :
    Act DigestState := do
  let exact ← reviveFound (archivedDup C archived scope key) tenant
  if exact then pure (st.revived key)
  else if (fuzzy C item scope st.active).isSome then pure st.skip
  else do
    let near ← reviveFound (fuzzy C item scope archived) tenant
    if near then pure (st.revived key)
    else digestDecide C input options tenant archived item scope key st

/-- `if (opts.signal?.aborted) throw` -/
def unlessCancelled : Act Unit := do
  let aborted ← Act.aborted
  Act.ensure (!aborted) .llmError "digest cancelled"

/-- One round of the loop. -/
def digestItem (input : DigestInput) (options : Options) (tenant : Option TenantFilter)
    (archived : List Memory) (st : DigestState) (extractedItem : ExtractedMemory) :
    Act DigestState := do
  unlessCancelled
  let item := cleanItem C extractedItem
  let scope := itemScope input item
  let key := dedupKey C item.type item.content scope
  if key ∈ st.seen then pure st.skip
  else digestFresh C input options tenant archived item scope key st

/-- The items of a transcript; a failure that is not classified is `LLM_ERROR`. -/
def extractItems (transcript : String) : Act (List ExtractedMemory) := do
  let answer ← Act.ask (.extract (some .internal) transcript)
  match answer with
  | .ok items => pure items
  | .error (.error e) => Prog.fail (.error e)
  | .error .other => Act.refuse .llmError "memory extraction failed"

structure DigestResult where
  extracted : ℕ
  stored : List Memory
  skippedDuplicates : ℕ
  merged : ℕ

/-- The readable memories of a list that are archived. -/
def archivedOnes (memories : List Memory) : List Memory :=
  memories.filter fun m => (Store.truthy m.archivedAt).isSome

/-- The state of the loop before the first item. -/
def digestStart (active : List Memory) : DigestState where
  active := active
  seen := active.map fun m => dedupKey C m.type m.content m.scope

/-- `digest` -/
def digest (input : DigestInput) (options : Options) : Act DigestResult := do
  Act.ensure C.extractionEnabled .invalidInput "memory extraction is disabled by policy"
  let tenant ← freshTenantFilter C options .write none
  let extracted ← extractItems input.transcript
  let current ← Act.all false tenant
  let active ← readable C options current
  let everything ← Act.all true tenant
  let archived ← readable C options (archivedOnes everything)
  let st ← extracted.foldlM (digestItem C input options tenant archived) (digestStart C active)
  pure ⟨extracted.length, st.stored, st.skippedDuplicates, st.merged⟩

/-! ### Compression -/

structure CompressInput where
  scope : Option String := none
  type : Option MemoryType := none
  ids : Option (List String) := none

/-- The memories with these ids that there are. -/
def getAll (tenant : Option TenantFilter) : List String → Act (List Memory)
  | [] => pure []
  | id :: ids => do
    let found ← Act.get id tenant
    let rest ← getAll tenant ids
    pure (found.toList ++ rest)

/-- The memories that are named, or all that are active. -/
def compressCandidates (input : CompressInput) (tenant : Option TenantFilter) : Act (List Memory) :=
  match input.ids with
  | some ids => getAll tenant ids
  | none => Act.all false tenant

/-- The memories that are to be compressed. -/
def compressPool (input : CompressInput) (options : Options) (tenant : Option TenantFilter) :
    Act (List Memory) := do
  let found ← compressCandidates input tenant
  let pool ← readable C options found
  pure (pool.filter fun m =>
    ((Store.truthy input.scope).all fun s => m.scope = s || m.scope = "global") &&
      input.type.all fun t => m.type = t)

/-- The memories with their ids, as the prompt has them. -/
def compressContent (pool : List Memory) : String :=
  "\n\n".intercalate (pool.map fun m => "[" ++ m.id ++ "] " ++ m.content)

def compressPrompt (content : String) : String :=
  "Consolidate the following related memories into one concise, accurate statement. Preserve all key facts and cite the source IDs. Return ONLY the consolidated text, nothing else.\n\n" ++ content

/-- The text without a language model. -/
def compressFallback (pool : List Memory) : String :=
  "[compressed from " ++ ",".intercalate (pool.map (·.id)) ++ "] " ++
    ". ".intercalate (pool.map (·.content))

/-- The input with which the compressed memory is stored; `first` is the first of the pool. -/
def compressInput (input : CompressInput) (options : Options) (first : Memory) (pool : List Memory)
    (content : String) (now : ℤ) : StoreInput :=
  let hasPrivateSource := pool.any fun m => m.access = some .isPrivate
  { type := input.type.getD first.type
    content := content
    scope := input.scope.getD first.scope
    tags := pool.flatMap (·.tags)
    importance := pool.foldl (fun n m => max n m.importance) first.importance
    confidence := some (pool.foldl (fun c m => min c m.confidence) first.confidence)
    owner := if hasPrivateSource then some .agent else none
    access := if hasPrivateSource then some .isPrivate else none
    provenance := some (if hasPrivateSource then {
        sourceType := some .agent
        agentId := options.agent.map (·.agentId)
        agentType := options.agent.bind (·.agentType)
        agentVersion := options.agent.bind (·.agentVersion)
        provider := some C.llmName }
      else { sourceType := some .system, provider := some C.llmName })
    metaFields := some [("compressedFrom", .seq (pool.map fun m => .str m.id)),
      ("compressionAt", .str (C.host.toISOString now))] }

/-- The compressed text, or what stands for it without a language model. -/
def compressedText (pool : List Memory) : Act String := do
  let answer ← Act.ask (.extract none (compressPrompt (compressContent pool)))
  match answer with
  | .ok items => pure ((items.head?.map (·.content)).getD (compressContent pool))
  | .error _ => pure (compressFallback pool)

/-- `compress`: the compressed memory, if there is one, and the ids of its sources. -/
def compress (input : CompressInput) (options : Options) : Act (Option Memory × List String) := do
  let tenant ← freshTenantFilter C options .write none
  let pool ← compressPool C input options tenant
  let sorted := pool.mergeSort fun a b => C.text.localeLe a.createdAt b.createdAt
  match sorted with
  | first :: _ :: _ :: _ => do
    let text ← compressedText sorted
    let now ← Act.now
    let stored ← store C (compressInput C input options first sorted text now) options none
    pure (some stored.memory, sorted.map (·.id))
  | _ => pure (none, [])

/-! ### The query's vector -/

def assertSearchNotCancelled : Act Unit := do
  let aborted ← Act.aborted
  Act.ensure (!aborted) .serviceUnavailable "search was cancelled"

/-- The part of `search` before it reads the store: the vector of the query. -/
def queryVector (query : Option String) (options : Options) : Act (Option (List JsNum)) := do
  assertSearchNotCancelled
  let _ ← freshTenantFilter C options .read none
  match (Store.truthy query).filter fun _ => C.embeddings with
  | none => pure none
  | some query => do
    let vector ← maybeEmbed C query
    assertSearchNotCancelled
    pure vector

end Texts

end Remembra.Service
