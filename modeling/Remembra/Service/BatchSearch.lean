import Remembra.Retrieval.Limit
import Remembra.Service.Preview
import Remembra.Service.Search

/-! Is a batch of searches its single searches, while nothing changes? The batch builds each result of
    the answer's fields without the report on the budget, and its bound counts limits, which a budget
    overrides. So it is its single searches exactly where each item with a budget is one that a single
    search refuses. -/

namespace Remembra.Service
open Store (Memory JsNum)
open Retrieval (SearchQuery SearchResults searchQ searchQ_eq_ok validBudget validWeights)
open Prog

section BatchSearch
variable (C : SearchConfig) (A : (q : SearchAsk) → q.Answer) (options : Options)

/-- The search for an item alone. -/
def single (item : SearchInput) : Except Thrown SearchAnswer :=
  (search C { item with } options).answered A

def withoutEmbeddings (answer : SearchAnswer) : SearchAnswer :=
  { answer with results := answer.results.map withoutEmbedding }

/-- What a single search returns for the item, without the embeddings, or its failure. -/
def singleOutcome (item : SearchInput) (index : ℕ) : SearchOutcome :=
  ⟨index, ((single C A options item).map withoutEmbeddings).mapError itemError⟩

def resultCount (outcome : SearchOutcome) : ℕ :=
  (outcome.result.toOption.map fun answer => answer.results.length).getD 0

/-- The outcomes are those of the single searches, in order, and the results are within the bound. -/
def IsSingles (items : List SearchInput) (outcomes : List SearchOutcome) : Prop :=
  outcomes = items.zipIdx.map (fun p => singleOutcome C A options p.1 p.2) ∧
    (outcomes.map resultCount).sum ≤ maxBatchSearchResults

/-- A search refuses the item: its budget has a bound below one, the weights of the policy are not valid,
    or the search fails before the ranking. -/
def Refused (item : SearchInput) : Prop :=
  ¬ validBudget item.budget ∨ ¬ validWeights C.platform C.policy.retrieval ∨
    ∀ pool, (searchPool C { item with } options).answered A ≠ .ok pool

variable {C A options} {item : SearchInput} {items : List SearchInput} {s : SearchAnswer}
  {outcomes : List SearchOutcome} {pool : SearchPool}

/-! ### A single search -/

theorem answered_asked {α : Type} (p : Act α) :
    (asked p).answered A = p.answered fun q => A (.ask q) :=
  answered_through _ (fun _ => rfl) p

theorem answered_rank (q : SearchQuery) (queryVec : Option (List JsNum)) (memories : List Memory) :
    (rank C q queryVec memories).answered A =
      (searchQ C.platform (A (.ask .now)) memories q queryVec C.policy.retrieval (A .clock)).mapError
        .error := by
  have hasked := answered_asked (A := A) (Act.ofRefusal (searchQ C.platform (A (.ask .now)) memories q
    queryVec C.policy.retrieval (A .clock)))
  rw [Act.ofRefusal, answered_ofExcept] at hasked
  exact hasked

theorem mapError_eq_ok {ε δ α : Type} {x : Except ε α} {f : ε → δ} {a : α} :
    x.mapError f = .ok a ↔ x = .ok a := by
  cases x <;> simp [Except.mapError]

theorem rank_eq_ok {q : SearchQuery} {queryVec : Option (List JsNum)} {memories : List Memory}
    {r : SearchResults} : (rank C q queryVec memories).answered A = .ok r ↔
      searchQ C.platform (A (.ask .now)) memories q queryVec C.policy.retrieval (A .clock) = .ok r := by
  rw [answered_rank, mapError_eq_ok]

/-- A search answers with what a ranking came to that has the item's budget and limit. -/
theorem single_eq_ok (h : single C A options item = .ok s) :
    (∃ pool, (searchPool C { item with } options).answered A = .ok pool) ∧
      ∃ q queryVec memories r, searchQ C.platform (A (.ask .now)) memories q queryVec
        C.policy.retrieval (A .clock) = .ok r ∧ q.budget = item.budget ∧ q.limit = item.limit ∧
        s.budget = r.budget ∧ s.results.length = r.results.length := by
  obtain ⟨pool, hpool, h⟩ := (answered_bind_eq_ok _).mp h
  obtain ⟨first, hfirst, h⟩ := (answered_bind_eq_ok _).mp h
  refine ⟨⟨pool, hpool⟩, ?_⟩
  simp only [withRelated] at h
  split_ifs at h
  · obtain ⟨reranked, hreranked, h⟩ := (answered_bind_eq_ok _).mp h
    obtain rfl := Except.ok.inj h
    exact ⟨_, _, _, reranked, rank_eq_ok.mp hreranked, rfl, rfl, rfl, List.length_map _⟩
  · obtain rfl := Except.ok.inj h
    exact ⟨_, _, _, first, rank_eq_ok.mp hfirst, rfl, rfl, rfl, List.length_map _⟩

theorem budget_of_single (h : single C A options item = .ok s) : s.budget.isSome = item.budget.isSome := by
  obtain ⟨-, q, _, _, r, hr, hbudget, -, hs, -⟩ := single_eq_ok h
  rw [hs, Retrieval.budget_of_searchQ hr, hbudget]

theorem length_of_single (h : single C A options item = .ok s) (hbudget : item.budget = none) :
    s.results.length ≤ item.limit.getD 10 := by
  obtain ⟨-, q, _, _, r, hr, hq, hlimit, -, hlength⟩ := single_eq_ok h
  rw [hlength, ← hlimit]
  exact Retrieval.length_results_le (hq.trans hbudget) hr

/-- A search answers exactly where nothing refuses the item. -/
theorem exists_single_iff : (∃ s, single C A options item = .ok s) ↔ ¬ Refused C A options item := by
  simp only [Refused, not_or, not_not, not_forall]
  constructor
  · rintro ⟨s, h⟩
    obtain ⟨⟨pool, hpool⟩, q, _, _, r, hr, hbudget, -⟩ := single_eq_ok h
    obtain ⟨⟨hvalid, hweights⟩, -⟩ := searchQ_eq_ok.mp hr
    exact ⟨hbudget ▸ hvalid, hweights, pool, hpool⟩
  · rintro ⟨hbudget, hweights, pool, hpool⟩
    have hranks (totalDocs : Option ℕ) (candidates : List String) (queryVec : Option (List JsNum))
        (memories : List Memory) : ∃ r, (rank C (SearchOptions.ranking { item with } totalDocs candidates)
          queryVec memories).answered A = .ok r :=
      ⟨_, rank_eq_ok.mpr (searchQ_eq_ok.mpr ⟨⟨hbudget, hweights⟩, rfl⟩)⟩
    obtain ⟨first, hfirst⟩ := hranks pool.totalDocs [] pool.queryVec pool.memories
    have hrelated : ∃ s, (withRelated C { item with } pool first).answered A = .ok s := by
      simp only [withRelated]
      split_ifs
      · obtain ⟨reranked, hreranked⟩ := hranks pool.totalDocs
          ((Retrieval.expandRelationCandidates pool.memories 32 first.results 1).map (·.id)) pool.queryVec
          (Retrieval.expandRelationCandidates pool.memories 32 first.results 1)
        exact ⟨_, (answered_bind_eq_ok _).mpr ⟨reranked, hreranked, rfl⟩⟩
      · exact ⟨_, rfl⟩
    obtain ⟨s, hs⟩ := hrelated
    exact ⟨s, (answered_bind_eq_ok _).mpr ⟨pool, hpool, (answered_bind_eq_ok _).mpr ⟨first, hfirst, hs⟩⟩⟩

/-! ### The batch -/

variable (C A options) in
/-- What the batch makes of a single search. -/
def batchOutcome (item : SearchInput) (index : ℕ) : SearchOutcome :=
  ⟨index, ((single C A options item).map itemResult).mapError itemError⟩

theorem answered_searchItems {index bytes : ℕ}
    (h : (searchItems C options index bytes items).answered A = .ok outcomes) :
    outcomes = (items.zipIdx index).map fun p => batchOutcome C A options p.1 p.2 := by
  induction items generalizing index bytes outcomes with
  | nil => exact (Except.ok.inj h).symm
  | cons item rest ih =>
    obtain ⟨_, -, h⟩ := (answered_bind_eq_ok _).mp h
    obtain ⟨answer, hanswer, h⟩ := (answered_bind_eq_ok _).mp h
    obtain ⟨_, -, h⟩ := (answered_bind_eq_ok _).mp h
    obtain ⟨_, -, h⟩ := (answered_bind_eq_ok _).mp h
    obtain ⟨later, hlater, h⟩ := (answered_bind_eq_ok _).mp h
    rw [answered_attempt] at hanswer
    obtain rfl := Except.ok.inj hanswer
    rw [List.zipIdx_cons, List.map_cons, ← ih hlater]
    exact (Except.ok.inj h).symm

theorem answered_batchSearch {fits : Bool}
    (h : (batchSearch C fits items options).answered A = .ok outcomes) :
    acceptsBatchSearch items = true ∧
      outcomes = items.zipIdx.map fun p => batchOutcome C A options p.1 p.2 := by
  obtain ⟨_, haccepts, h⟩ := (answered_bind_eq_ok _).mp h
  obtain ⟨all, hall, h⟩ := (answered_bind_eq_ok _).mp h
  obtain ⟨_, -, h⟩ := (answered_bind_eq_ok _).mp h
  obtain ⟨_, -, h⟩ := (answered_bind_eq_ok _).mp h
  obtain rfl := Except.ok.inj h
  refine ⟨?_, answered_searchItems hall⟩
  rw [answered_asked, Act.ensure] at haccepts
  split_ifs at haccepts with hfits
  · exact (Bool.and_eq_true_iff.mp hfits).2
  · cases haccepts

theorem itemResult_eq_iff : itemResult s = withoutEmbeddings s ↔ s.budget = none := by
  constructor
  · intro h
    exact (congrArg SearchAnswer.budget h).symm
  · intro h
    rw [itemResult, withoutEmbeddings, h]

/-- The outcome of an item is that of its single search exactly where no report on a budget is lost. -/
theorem batchOutcome_eq_iff {index : ℕ} :
    batchOutcome C A options item index = singleOutcome C A options item index ↔
      (item.budget.isSome = true → Refused C A options item) := by
  have hanswers : (∃ s, single C A options item = .ok s) ↔ ¬ Refused C A options item :=
    exists_single_iff
  rw [batchOutcome, singleOutcome]
  cases hs : single C A options item with
  | error e =>
    have hrefused : Refused C A options item := by
      by_contra hnot
      obtain ⟨s, hok⟩ := hanswers.mpr hnot
      rw [hs] at hok
      cases hok
    exact iff_of_true rfl fun _ => hrefused
  | ok s =>
    have hnot : ¬ Refused C A options item := hanswers.mp ⟨s, hs⟩
    have hreport := budget_of_single hs
    simp only [Except.map, Except.mapError, SearchOutcome.mk.injEq, true_and, Except.ok.injEq, hnot,
      imp_false, Bool.not_eq_true, ← hreport, Option.isSome_eq_false_iff, Option.isNone_iff_eq_none]
    exact itemResult_eq_iff

/-- Without a budget, an item has no more results than it asks for. -/
theorem resultCount_batchOutcome_le {index : ℕ}
    (hbudget : item.budget.isSome = true → Refused C A options item) :
    resultCount (batchOutcome C A options item index) ≤ item.limit.getD 10 := by
  rw [batchOutcome]
  cases hs : single C A options item with
  | error e => exact Nat.zero_le _
  | ok s =>
    have hnone : item.budget = none := by
      rw [← Option.not_isSome_iff_eq_none]
      exact fun hsome => exists_single_iff.mp ⟨s, hs⟩ (hbudget hsome)
    simpa [resultCount, Except.map, Except.mapError, Except.toOption, itemResult]
      using length_of_single hs hnone

/-- A batch that answers has the outcomes of its single searches, within the bound on its results, exactly
    where each item with a budget is one that a single search refuses. -/
theorem batchSearch_iff {fits : Bool}
    (h : (batchSearch C fits items options).answered A = .ok outcomes) :
    IsSingles C A options items outcomes ↔
      ∀ item ∈ items, item.budget.isSome = true → Refused C A options item := by
  obtain ⟨haccepts, rfl⟩ := answered_batchSearch h
  have hmem (item : SearchInput) : item ∈ items ↔ ∃ p ∈ items.zipIdx, p.1 = item := by
    rw [← List.mem_map, List.zipIdx_map_fst]
  rw [IsSingles, List.map_inj_left]
  constructor
  · rintro ⟨heq, -⟩ item hitem
    obtain ⟨p, hp, rfl⟩ := (hmem item).mp hitem
    exact batchOutcome_eq_iff.mp (heq p hp)
  · intro hrefused
    have hitem (p : SearchInput × ℕ) (hp : p ∈ items.zipIdx) := hrefused p.1 ((hmem p.1).mpr ⟨p, hp, rfl⟩)
    refine ⟨fun p hp => batchOutcome_eq_iff.mpr (hitem p hp), ?_⟩
    have hlimits : (items.map fun item => item.limit.getD 10).sum ≤ maxBatchSearchResults := by
      simp only [acceptsBatchSearch, Bool.and_eq_true, decide_eq_true_eq] at haccepts
      exact haccepts.2
    calc ((items.zipIdx.map fun p => batchOutcome C A options p.1 p.2).map resultCount).sum
        ≤ (items.zipIdx.map fun p => p.1.limit.getD 10).sum := by
          rw [List.map_map]
          exact List.sum_le_sum fun p hp => resultCount_batchOutcome_le (hitem p hp)
      _ = (items.map fun item => item.limit.getD 10).sum := by
          conv_rhs => rw [← List.zipIdx_map_fst 0 items, List.map_map]
          rfl
      _ ≤ maxBatchSearchResults := hlimits

end BatchSearch

/-- A service that rounds nothing, with small answers. -/
def plainSearch : SearchConfig where
  toConfig := plainConfig
  floats := Retrieval.plainPlatform.floats
  outcomeBytes _ := 0
  responseBytes _ := 0

/-- A world that stands still, without a backend that selects candidates. -/
def still (w : World) : (q : SearchAsk) → q.Answer
  | .ask q => (handle plainConfig steady q w).1
  | .candidates _ => .error .other
  | .clock => fun _ => .finite 0

def emptyWorld : World := { tables := {}, manifest := { id := "local", privacy := .isLocal, maxSensitivity := .internal } }

theorem batchSearch_plain : ∃ outcomes,
    (batchSearch plainSearch true [{}] {}).answered (still emptyWorld) = .ok outcomes ∧
    IsSingles plainSearch (still emptyWorld) {} [{}] outcomes :=
  ⟨_, rfl, (batchSearch_iff (show (batchSearch plainSearch true [{}] {}).answered (still emptyWorld) = _
    from rfl)).mpr (by simp)⟩

/-- A search with room for five memories. -/
def fiveItems : SearchInput := { budget := some { maxItems := some 5 } }

/-- The search answers with a report on its budget, and the batch leaves the report out. -/
theorem report_lost_in_batch :
    ¬ ∀ (C : SearchConfig) (A : (q : SearchAsk) → q.Answer) (options : Options) (fits : Bool)
      (items : List SearchInput) (outcomes : List SearchOutcome),
      (batchSearch C fits items options).answered A = .ok outcomes →
      IsSingles C A options items outcomes := by
  intro hall
  have hsingles := hall plainSearch (still emptyWorld) {} true [fiveItems] _ rfl
  have hsame : batchOutcome plainSearch (still emptyWorld) {} fiveItems 0 =
      singleOutcome plainSearch (still emptyWorld) {} fiveItems 0 := (List.cons.inj hsingles.1).1
  rcases batchOutcome_eq_iff.mp hsame rfl with hbudget | hweights | hpool
  · exact hbudget fun b hb => by
      obtain rfl := Option.some.inj hb
      rfl
  · exact hweights fun h => by cases h
  · exact hpool ⟨none, [], none⟩ rfl

end Remembra.Service
