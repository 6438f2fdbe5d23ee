import Mathlib.Data.List.Infix
import Remembra.Retrieval.Numbers
import Remembra.Service.Asks

/-! What a search makes of each memory: its terms, its lexical and its semantic score, the fusion of the
    two rankings and the points that are added to it. -/

namespace Remembra.Retrieval
open Store (Memory TrustLevel JsNum truthy)
open Jobs (utf16Length)

/-- What the ranking uses of the platform. -/
structure Platform where
  text : Service.TextPlatform
  /-- `Date.parse(s)`; `none` is `NaN`. -/
  dateParse : String → Option ℤ
  floats : Floats

/-- `a.localeCompare(b)` -/
def Platform.localeCompare (P : Platform) (a b : String) : Ordering :=
  if P.text.localeLe a b then if P.text.localeLe b a then .eq else .lt else .gt

/-! ### Terms -/

/-- `CJK_RANGE` -/
def isCjk (c : Char) : Bool :=
  (0x3400 ≤ c.toNat && c.toNat ≤ 0x4dbf) || (0x4e00 ≤ c.toNat && c.toNat ≤ 0x9fff) ||
    (0xf900 ≤ c.toNat && c.toNat ≤ 0xfaff) || (0x3040 ≤ c.toNat && c.toNat ≤ 0x30ff)

/-- What `.` does not match. -/
def isLineEnd (c : Char) : Bool := c.toNat ∈ [0xa, 0xd, 0x2028, 0x2029]

/-- What follows a word in any case, and white space after it. -/
def afterWord (word : String) (l : List Char) : Option (List Char) :=
  if (l.take word.length).map Char.toLower = word.toList then
    let rest := l.drop word.length
    if rest.head?.any Regex.isSpace then some (rest.dropWhile Regex.isSpace) else none
  else none

/-- `latest\s+(\d+)(?:\s+(.*))?`, for either word: the digits and the text after them. -/
def countedBody (word : String) (l : List Char) : Option (List Char × List Char) :=
  (afterWord word l).bind fun rest =>
    let digits := rest.takeWhile Char.isDigit
    let tail := rest.dropWhile Char.isDigit
    if digits = [] then none
    else if tail.head?.any Regex.isSpace then
      some (digits, (tail.dropWhile Regex.isSpace).takeWhile fun c => !isLineEnd c)
    else some (digits, [])

/-- The qualifiers that the ranking reads: a `before` or an `after` is recognized and has no effect. -/
structure Temporal where
  latestCount : Option ℕ := none
  recentCount : Option ℕ := none

def digitsValue (digits : List Char) : ℕ :=
  digits.foldl (fun n c => 10 * n + (c.toNat - '0'.toNat)) 0

/-- `TEMPORAL_RE`: the qualifier and the body of a query. -/
def temporalQuery (l : List Char) : Temporal × List Char :=
  match countedBody "latest" l, countedBody "recent" l with
  | some (digits, body), _ => ({ latestCount := some (digitsValue digits) }, body)
  | none, some (digits, body) => ({ recentCount := some (digitsValue digits) }, body)
  | none, none =>
    if (afterWord "before" l).any (fun rest => rest ≠ []) ||
        (afterWord "after" l).any (fun rest => rest ≠ [] && rest.all fun c => !isLineEnd c) then ({}, [])
    else ({}, l)

section Terms
variable (P : Platform)

def tokenize (text : String) : List String :=
  let runs := ((P.text.lower text).toList.splitOnP fun c => !P.text.isLetterOrNumber c).filter (· ≠ [])
  runs.flatMap fun run =>
    if run.any isCjk then run.map fun c => String.ofList [c] else [String.ofList run]

def extractQuery (raw : Option String) : List String × Temporal :=
  let q := Jobs.trim (raw.getD "")
  if q = "" then ([], {})
  else
    let (temporal, body) := temporalQuery q.toList
    let terms := (tokenize P (Jobs.trim (.ofList body))).filter fun t =>
      1 < utf16Length t || t.toList.any isCjk
    (terms, temporal)

/-! ### Scope -/

/-- No points mean that the memory is of another scope. -/
def applyScopeFilter (m : Memory) (queryScope : Option String) : ℕ :=
  let scope := truthy queryScope
  if scope.any (m.scope ≠ ·) && m.scope ≠ "global" then 0
  else if m.scope = "global" then 100
  else if scope.any (m.scope = ·) then 150
  else 100

/-! ### Lexical score -/

structure LexicalWeights where
  content : JsNum
  tags : JsNum
  prefixed : JsNum
  phrase : JsNum

/-- `DEFAULT_LEXICAL_WEIGHTS` -/
def defaultLexicalWeights : LexicalWeights where
  content := ofInt 1
  tags := P.floats.literal (1 / 2)
  prefixed := P.floats.literal (35 / 100)
  phrase := P.floats.literal (3 / 2)

/-- `LEXICAL_HEADROOM` -/
def lexicalHeadroom : JsNum := ofInt 2

structure TermStatistics where
  documentFrequency : String → Option ℕ
  documentCount : JsNum

def memoryTokens (m : Memory) : List String := tokenize P m.content ++ m.tags.flatMap (tokenize P)

def buildTermStatistics (memories : List Memory) (terms : List String) (documentCount : JsNum) :
    TermStatistics where
  documentFrequency term :=
    let count := memories.countP fun m => term ∈ memoryTokens P m
    if term ≠ "" && term ∈ terms.map P.text.lower && 0 < count then some count else none
  documentCount := documentCount

def normalisedIdf (stats : TermStatistics) (term : String) : JsNum :=
  let F := P.floats
  if atMost stats.documentCount (ofInt 0) then ofInt 1
  else
    let frequency := match stats.documentFrequency term with
      | none => stats.documentCount
      | some df => larger (ofInt 1) (ofNat df)
    let ceiling := F.log (F.add (ofInt 1) stats.documentCount)
    if atMost ceiling (ofInt 0) then ofInt 1
    else larger (ofInt 0) (smaller (ofInt 1)
      (F.div (F.log (F.add (ofInt 1) (F.div stats.documentCount frequency))) ceiling))

/-- A token that is longer than the term and begins with it. -/
def isPrefixed (term token : String) : Bool :=
  utf16Length term < utf16Length token && term.toList.isPrefixOf token.toList

/-- The credit with what a term earns in a field of the memory. -/
def addFieldCredit (weight prefixed idf : JsNum) (tokens : List String) (term : String)
    (credit : JsNum) : JsNum :=
  let F := P.floats
  if term ∈ tokens then F.add credit (F.mul weight idf)
  else if tokens.any (isPrefixed term) then F.add credit (F.mul (F.mul weight prefixed) idf)
  else credit

/-- The credits so far: all of them, and those for a whole token of the content. -/
structure Credits where
  matched : JsNum := ofInt 0
  exactContent : JsNum := ofInt 0

/-- One round of the loop over the terms. -/
def addTerm (weights : LexicalWeights) (stats : TermStatistics) (content tags : List String)
    (credits : Credits) (rawTerm : String) : Credits :=
  let F := P.floats
  let term := P.text.lower rawTerm
  if term = "" then credits
  else
    let idf := normalisedIdf P stats term
    let credit := addFieldCredit P weights.content weights.prefixed idf content term (ofInt 0)
    let credit := addFieldCredit P weights.tags weights.prefixed idf tags term credit
    { matched := F.add credits.matched credit
      exactContent := if term ∈ content then F.add credits.exactContent (F.mul weights.content idf)
        else credits.exactContent }

/-- `keywordScore` -/
def keywordScore (m : Memory) (terms : List String) (weights : LexicalWeights)
    (stats : TermStatistics) : JsNum :=
  let F := P.floats
  if terms = [] then ofInt 0
  else
    let content := tokenize P m.content
    let tags := m.tags.flatMap (tokenize P)
    let credits := terms.foldl (addTerm P weights stats content tags) {}
    let ordered := terms.map P.text.lower
    let matched :=
      if 1 < terms.length && less (ofInt 0) credits.exactContent && decide (ordered <:+: content) then
        F.add credits.matched (F.mul credits.exactContent (F.sub weights.phrase (ofInt 1)))
      else credits.matched
    let maxPossible := F.mul (F.mul (ofNat terms.length) weights.content) lexicalHeadroom
    if atMost maxPossible (ofInt 0) then ofInt 0
    else
      let coverage := F.div matched maxPossible
      if atMost coverage (ofInt 0) then ofInt 0
      else if atMost (ofInt 1) coverage then ofInt 60
      else F.mul coverage (ofInt 60)

/-! ### Semantic score -/

/-- `cosine` -/
def cosine (a b : List JsNum) : JsNum :=
  let F := P.floats
  if a = [] || a.length ≠ b.length then ofInt 0
  else
    let sum := fun (l : List (JsNum × JsNum)) =>
      l.foldl (fun total p => F.add total (F.mul p.1 p.2)) (ofInt 0)
    let dot := sum (a.zip b)
    let na := sum (a.zip a)
    let nb := sum (b.zip b)
    if same na (ofInt 0) || same nb (ofInt 0) then ofInt 0
    else F.div dot (F.mul (F.sqrt na) (F.sqrt nb))

/-- The embedding of a memory, if it has one of the length of the query's vector. -/
def comparable (m : Memory) (queryVec : List JsNum) : Option (List JsNum) :=
  m.embedding.filter fun e => e.length = queryVec.length

def vectorScore (m : Memory) (queryVec : List JsNum) : JsNum :=
  match (comparable m queryVec).filter (· ≠ []) with
  | none => ofInt 0
  | some e => P.floats.mul (larger (ofInt 0) (cosine P queryVec e)) (ofInt 100)

/-! ### Fusion -/

structure FusionWeights where
  keyword : JsNum
  semantic : JsNum
  metadata : JsNum
  recency : JsNum
  confidence : JsNum
  rrfK : JsNum
  fusionScale : JsNum

/-- `DEFAULT_FUSION_WEIGHTS` -/
def defaultFusionWeights : FusionWeights where
  keyword := ofInt 1
  semantic := ofInt 1
  metadata := ofInt 1
  recency := ofInt 1
  confidence := ofInt 1
  rrfK := P.floats.literal (16 / 10)
  fusionScale := ofInt 50

/-- `Partial<FusionWeights>` -/
structure PartialWeights where
  keyword : Option JsNum := none
  semantic : Option JsNum := none
  metadata : Option JsNum := none
  recency : Option JsNum := none
  confidence : Option JsNum := none
  rrfK : Option JsNum := none
  fusionScale : Option JsNum := none

/-- `{ ...DEFAULT_FUSION_WEIGHTS, ...weights }` -/
def PartialWeights.over (w : PartialWeights) (d : FusionWeights) : FusionWeights where
  keyword := w.keyword.getD d.keyword
  semantic := w.semantic.getD d.semantic
  metadata := w.metadata.getD d.metadata
  recency := w.recency.getD d.recency
  confidence := w.confidence.getD d.confidence
  rrfK := w.rrfK.getD d.rrfK
  fusionScale := w.fusionScale.getD d.fusionScale

def invalidInput (message : String) : RemembraError := ⟨.invalidInput, message⟩

def FusionWeights.named (w : FusionWeights) : List (String × JsNum) :=
  [("keyword", w.keyword), ("semantic", w.semantic), ("metadata", w.metadata), ("recency", w.recency),
    ("confidence", w.confidence), ("rrfK", w.rrfK), ("fusionScale", w.fusionScale)]

def assertValidFusionWeights (w : FusionWeights) : Except RemembraError Unit :=
  match w.named.find? fun (_, value) => !isFinite value || less value (ofInt 0) with
  | some (name, _) =>
    .error (invalidInput ("fusion weight " ++ name ++ " must be a non-negative finite number"))
  | none =>
    if same w.rrfK (ofInt 0) then
      .error (invalidInput "fusion weight rrfK must be greater than zero")
    else .ok ()

/-- An id in a ranking, with its score. -/
abbrev Ranked := String × JsNum

/-- The contributions of a ranking: those with one score share the average of their ranks. -/
def contributions (listWeight rrfK : JsNum) : ℕ → List (List Ranked) → List Ranked
  | _, [] => []
  | i, group :: rest =>
    let j := i + group.length
    let avgRank := P.floats.div (ofNat (i + 1 + j)) (ofInt 2)
    let credit := P.floats.div listWeight (P.floats.add rrfK avgRank)
    group.map (fun e => (e.1, credit)) ++ contributions listWeight rrfK j rest

/-- The ranking, with its runs of one score. -/
def listContributions (listWeight rrfK : JsNum) (list : List Ranked) : List Ranked :=
  contributions P listWeight rrfK 0 (list.splitBy fun a b => same a.2 b.2)

/-- `singleListRanks` -/
def singleListRanks (listWeight rrfK : JsNum) (list : List Ranked) : OrdMap String JsNum :=
  (listContributions P listWeight rrfK list).foldl (fun out e => out.set e.1 e.2) .empty

/-- `rrfFuse` -/
def rrfFuse (kwRank vecRank : List Ranked) (weights : FusionWeights) : OrdMap String JsNum :=
  (listContributions P weights.keyword weights.rrfK kwRank ++
    listContributions P weights.semantic weights.rrfK vecRank).foldl
    (fun fuse e => fuse.set e.1 (P.floats.add ((fuse.get e.1).getD (ofInt 0)) e.2)) .empty

/-- Both rankings, or the only one that there is. -/
def fuseScores (kwRank vecRank : List Ranked) (weights : FusionWeights) : OrdMap String JsNum :=
  if kwRank = [] then singleListRanks P weights.semantic weights.rrfK vecRank
  else if vecRank = [] then singleListRanks P weights.keyword weights.rrfK kwRank
  else rrfFuse P kwRank vecRank weights

/-! ### Points -/

/-- `TRUST_POINTS` -/
def trustPoints : TrustLevel → JsNum
  | .system => ofInt 8
  | .verified => ofInt 6
  | .trusted => ofInt 2
  | .unverified => ofInt (-8)

def recencyScore (m : Memory) (now : ℤ) : JsNum :=
  let F := P.floats
  let updated := ((P.dateParse m.updatedAt).map ofInt).getD .nan
  let ageDays := F.div (F.sub (ofInt now) updated) (ofInt 86400000)
  if !isFinite ageDays then ofInt 0
  else F.mul (ofInt 20) (F.exp2 (F.div (opposite (larger (ofInt 0) ageDays)) (ofInt 30)))

def metadataPoints (m : Memory) : JsNum :=
  let F := P.floats
  let points := if m.provenance.sourceType = .manual then F.add (ofInt 0) (ofInt 10) else ofInt 0
  let points := F.add points (trustPoints m.trust)
  let points := if m.retention = some .pinned then F.add points (ofInt 50) else points
  F.add points (F.mul (ofInt m.importance) (ofInt 4))

def modifierScore (m : Memory) (temporal : Temporal) (now : ℤ) (weights : FusionWeights) : JsNum :=
  let F := P.floats
  let recencyMultiplier :=
    if temporal.latestCount.isSome || temporal.recentCount.isSome then ofInt 2 else F.literal (1 / 2)
  let s := F.add (ofInt 0) (F.mul (metadataPoints P m) weights.metadata)
  let s := F.add s (F.mul (F.mul (.finite m.confidence) (ofInt 20)) weights.confidence)
  F.add s (F.mul (F.mul (recencyScore P m now) recencyMultiplier) weights.recency)

/-- Roles and instructions that may steer answers. -/
def isStandingInstruction (m : Memory) (requireTrust : Bool) : Bool :=
  (m.type = .role || m.type = .instruction) && (!requireTrust || m.trust ≠ .unverified)

def applyStandingGate (score : JsNum) (m : Memory) (requireTrust : Bool) : JsNum :=
  if isStandingInstruction m requireTrust then P.floats.add score (ofInt 1000) else score

end Terms

end Remembra.Retrieval
