import Mathlib.Data.Nat.Log
import Remembra.Lib.Discount
import Remembra.Retrieval.Lexical
import Remembra.Service.Context

/-! The evaluation of a search against queries whose relevant memories are known. Its measures are ratios for
    each query, whatever was found and whatever was to be found, and their means are ratios where there is a
    query: the mean over no queries is no number (`evaluate_ratios_iff`). -/

namespace Remembra.Retrieval
open Store (Memory JsNum)
open Service (TokenCounter defaultTokenCounter)
open Utf16 (units)
open Discount (discounted ideal Discounts)

/-! ### What is measured -/

structure EvalQuery where
  id : String
  text : String
  relevantIds : List String
  irrelevantIds : Option (List String) := none

structure QueryMetrics where
  precisionAtK : JsNum
  recallAtK : JsNum
  mrr : JsNum
  ndcgAtK : JsNum
  hitRateAtK : JsNum

structure ContextMetrics where
  tokenEfficiency : JsNum
  duplicateRate : JsNum
  tokensTotal : JsNum
  tokensRelevant : JsNum
  duplicates : ℕ
  returned : ℕ

structure QueryResult extends QueryMetrics, ContextMetrics where
  id : String
  latencyMs : JsNum
  topIds : List String

structure Aggregate where
  precisionAtK : JsNum
  recallAtK : JsNum
  mrr : JsNum
  ndcgAtK : JsNum
  hitRateAtK : JsNum
  avgLatencyMs : JsNum
  p50LatencyMs : JsNum
  p95LatencyMs : JsNum
  p99LatencyMs : JsNum
  queriesEvaluated : ℕ
  tokenEfficiency : JsNum
  duplicateRate : JsNum
  tokensTotal : JsNum
  tokensRelevant : JsNum
  duplicates : ℕ
  returned : ℕ

structure EvalResult where
  queries : List QueryResult
  aggregate : Aggregate

/-- The options of an evaluation, and what it uses of the platform. The search and the clock may answer
    differently each time. -/
structure Evaluator (σ : Type) where
  platform : Platform
  /-- `Math.log2` -/
  log2 : JsNum → JsNum
  searchFn : String → StateM σ (List Memory)
  tokenCounter : TokenCounter := defaultTokenCounter
  /-- `performance.now()` -/
  now : StateM σ JsNum

namespace Evaluator
variable {σ : Type} (E : Evaluator σ)

def floats : Floats := E.platform.floats

/-- What a relevant result in a place counts for. -/
def discount (i : ℕ) : JsNum := E.floats.div (ofInt 1) (E.log2 (ofNat (i + 2)))

/-- The loop over the first results. -/
def dcg (relevantIds : Finset String) : ℕ → JsNum → List String → JsNum
  | _, total, [] => total
  | i, total, id :: rest =>
    dcg relevantIds (i + 1) (if id ∈ relevantIds then E.floats.add total (E.discount i) else total) rest

/-- The loop over the places of an ideal ranking. -/
def idcg (idealK : ℕ) : JsNum :=
  (List.range idealK).foldl (fun total i => E.floats.add total (E.discount i)) (ofInt 0)

def computeQueryMetrics (topIds : List String) (relevantIds _irrelevantIds : Finset String) (k : ℕ) :
    QueryMetrics :=
  let F := E.floats
  let topK := topIds.take k
  let relevantInTop := topK.filter (· ∈ relevantIds)
  let totalRelevant := relevantIds.card
  let idcg := E.idcg (min totalRelevant k)
  { precisionAtK :=
      if 0 < topK.length then F.div (ofNat relevantInTop.length) (ofNat topK.length) else ofInt 0
    recallAtK :=
      if 0 < totalRelevant then F.div (ofNat relevantInTop.length) (ofNat totalRelevant) else ofInt 1
    mrr := match topK.findIdx? (· ∈ relevantIds) with
      | some rank => F.div (ofInt 1) (ofNat (rank + 1))
      | none => ofInt 0
    ndcgAtK := if less (ofInt 0) idcg then F.div (E.dcg relevantIds 0 (ofInt 0) topK) idcg else ofInt 1
    hitRateAtK := if 0 < relevantInTop.length then ofInt 1 else ofInt 0 }

/-- What the loop over the results has counted. -/
structure Tally where
  tokensTotal : JsNum := ofInt 0
  tokensRelevant : JsNum := ofInt 0
  duplicates : ℕ := 0
  seen : List String := []

def tallyMemory (relevantIds : Finset String) (t : Tally) (m : Memory) : Tally :=
  let tokens := E.tokenCounter.count (units m.content)
  let key := duplicateKey E.platform m
  { tokensTotal := E.floats.add t.tokensTotal tokens
    tokensRelevant := if m.id ∈ relevantIds then E.floats.add t.tokensRelevant tokens else t.tokensRelevant
    duplicates := if key ∈ t.seen then t.duplicates + 1 else t.duplicates
    seen := if key ∈ t.seen then t.seen else t.seen ++ [key] }

def computeContextMetrics (results : List Memory) (relevantIds : Finset String) : ContextMetrics :=
  let t := results.foldl (E.tallyMemory relevantIds) {}
  let returned := results.length
  { tokenEfficiency := if returned = 0 || same t.tokensTotal (ofInt 0) then ofInt 1
      else E.floats.div t.tokensRelevant t.tokensTotal
    duplicateRate := if returned = 0 then ofInt 0 else E.floats.div (ofNat t.duplicates) (ofNat returned)
    tokensTotal := t.tokensTotal
    tokensRelevant := t.tokensRelevant
    duplicates := t.duplicates
    returned }

/-- What is made of the answer to a query. -/
def measured (k : ℕ) (q : EvalQuery) (results : List Memory) (latencyMs : JsNum) : QueryResult :=
  let relSet := q.relevantIds.toFinset
  let irrSet := (q.irrelevantIds.getD []).toFinset
  let topK := results.take k
  { E.computeQueryMetrics (results.map (·.id)) relSet irrSet k, E.computeContextMetrics topK relSet with
    id := q.id
    latencyMs
    topIds := topK.map (·.id) }

/-- `Math.round(ms * 10) / 10` -/
def tenths (ms : JsNum) : JsNum := E.floats.div (mathRound (E.floats.mul ms (ofInt 10))) (ofInt 10)

/-- The loop over the queries: each with its latency, and with its measures. -/
def evaluateQueries (k : ℕ) : List EvalQuery → StateM σ (List (JsNum × QueryResult))
  | [] => pure []
  | q :: rest => do
    let t0 ← E.now
    let results ← E.searchFn q.text
    let answered ← E.now
    let done ← E.now
    let result := E.measured k q results (E.tenths (E.floats.sub done t0))
    let later ← evaluateQueries k rest
    pure ((E.floats.sub answered t0, result) :: later)

def percentile (sorted : List JsNum) (p : ℕ) : JsNum :=
  if sorted = [] then ofInt 0
  else
    match E.floats.mul (E.floats.div (ofNat p) (ofInt 100)) (ofNat sorted.length) with
    | .finite q => sorted.getD (⌈q⌉ - 1).toNat .nan
    | _ => .nan

/-- The sum over the number. -/
def agg (values : List JsNum) : JsNum :=
  E.floats.div (values.foldl E.floats.add (ofInt 0)) (ofNat values.length)

def evaluate (k : ℕ) (queries : List EvalQuery) : StateM σ EvalResult := do
  let measures ← E.evaluateQueries k queries
  let perQuery := measures.map Prod.snd
  let latencies := (measures.map Prod.fst).mergeSort fun a b => E.floats.order a b ≠ .gt
  pure {
    queries := perQuery
    aggregate :=
      { precisionAtK := E.agg (perQuery.map (·.precisionAtK))
        recallAtK := E.agg (perQuery.map (·.recallAtK))
        mrr := E.agg (perQuery.map (·.mrr))
        ndcgAtK := E.agg (perQuery.map (·.ndcgAtK))
        hitRateAtK := E.agg (perQuery.map (·.hitRateAtK))
        avgLatencyMs := E.tenths (E.agg latencies)
        p50LatencyMs := E.tenths (E.percentile latencies 50)
        p95LatencyMs := E.tenths (E.percentile latencies 95)
        p99LatencyMs := E.tenths (E.percentile latencies 99)
        queriesEvaluated := perQuery.length
        tokenEfficiency := E.agg (perQuery.map (·.tokenEfficiency))
        duplicateRate := E.agg (perQuery.map (·.duplicateRate))
        tokensTotal := (perQuery.map (·.tokensTotal)).foldl E.floats.add (ofInt 0)
        tokensRelevant := (perQuery.map (·.tokensRelevant)).foldl E.floats.add (ofInt 0)
        duplicates := (perQuery.map (·.duplicates)).sum
        returned := (perQuery.map (·.returned)).sum } }

/-- What the laws of the measures rely on: a platform that computes exactly, a logarithm to base two that
    grows, a counter of tokens that is never negative, and a search that finds nothing twice. -/
structure Lawful : Prop where
  exact : E.floats.Exact
  log2_pos : ∀ n : ℕ, 2 ≤ n → ∃ q : ℚ, E.log2 (ofNat n) = .finite q ∧ 0 < q
  log2_strict : ∀ (m n : ℕ) (p q : ℚ), 2 ≤ m → m < n →
    E.log2 (ofNat m) = .finite p → E.log2 (ofNat n) = .finite q → p < q
  counts : ∀ text, ∃ q : ℚ, E.tokenCounter.count text = .finite q ∧ 0 ≤ q
  distinct : ∀ text s, (((E.searchFn text).run s).1.map (·.id)).Nodup

/-! ### The measures of a ranking -/

/-- A number, where it is one. -/
def value : JsNum → ℚ
  | .finite q => q
  | _ => 0

/-- What a relevant result in a place counts for, as a number. -/
def gain (i : ℕ) : ℚ := 1 / value (E.log2 (ofNat (i + 2)))

section Ranking
variable {E} (hE : E.Lawful) {relevantIds irrelevantIds : Finset String} {ids : List String} {k : ℕ}

include hE

theorem discount_eq (i : ℕ) : E.discount i = .finite (E.gain i) := by
  obtain ⟨q, hq, hpos⟩ := hE.log2_pos (i + 2) (by omega)
  rw [discount, gain, hq, ofInt, div_finite hE.exact _ hpos.ne', value, Int.cast_one]

theorem discounts : Discounts E.gain where
  pos := by
    intro i
    obtain ⟨q, hq, hpos⟩ := hE.log2_pos (i + 2) (by omega)
    rw [gain, hq]
    exact one_div_pos.mpr hpos
  anti := by
    intro i j hij
    obtain ⟨p, hp, hpos⟩ := hE.log2_pos (i + 2) (by omega)
    obtain ⟨q, hq, -⟩ := hE.log2_pos (j + 2) (by omega)
    have hlt := hE.log2_strict (i + 2) (j + 2) p q (by omega) (by omega) hp hq
    rw [gain, gain, hp, hq]
    exact one_div_lt_one_div_of_lt hpos hlt

theorem dcg_eq (i : ℕ) (total : ℚ) (ids : List String) :
    E.dcg relevantIds i (.finite total) ids =
      .finite (total + discounted E.gain i (ids.map fun id => decide (id ∈ relevantIds))) := by
  induction ids generalizing i total with
  | nil => simp [dcg, discounted]
  | cons id ids ih =>
    rw [dcg, discount_eq hE, add_finite hE.exact, List.map_cons, discounted]
    by_cases hid : id ∈ relevantIds
    · rw [if_pos hid, ih, if_pos (decide_eq_true hid), add_assoc]
    · rw [if_neg hid, ih, decide_eq_false hid, if_neg (by decide), zero_add]

theorem idcg_eq (n : ℕ) : E.idcg n = .finite (ideal E.gain 0 n) := by
  rw [idcg]
  induction n with
  | zero => rfl
  | succ n ih =>
    rw [List.range_succ, List.foldl_append, ih, List.foldl_cons, List.foldl_nil, discount_eq hE,
      add_finite hE.exact, Discount.ideal_concat, Nat.zero_add]

/-- A number of things, over a number of which they are some. -/
theorem within_share {a b : ℕ} (hab : a ≤ b) (hb : 0 < b) :
    Within 0 1 (E.floats.div (ofNat a) (ofNat b)) := by
  have hpos : (0 : ℚ) < b := by exact_mod_cast hb
  have hle : (a : ℚ) ≤ b := by exact_mod_cast hab
  have hnonneg : (0 : ℚ) ≤ a := Nat.cast_nonneg a
  refine ⟨a / b, ?_, ?_, ?_⟩
  · rw [ofNat, ofNat, div_finite hE.exact _ hpos.ne']
  · rw [Int.cast_zero]
    exact div_nonneg hnonneg hpos.le
  · rw [Int.cast_one]
    exact (div_le_one hpos).mpr hle

omit hE in
/-- No more is found than there is, and no more than is looked at. -/
theorem hits_le (h : ids.Nodup) :
    ((ids.take k).filter (· ∈ relevantIds)).length ≤ min relevantIds.card k := by
  refine le_min ?_ ?_
  · have hnodup : ((ids.take k).filter (· ∈ relevantIds)).Nodup :=
      (h.sublist (List.take_sublist k ids)).filter _
    rw [← List.toFinset_card_of_nodup hnodup]
    refine Finset.card_le_card fun id hid => ?_
    simpa using (List.mem_filter.mp (List.mem_toFinset.mp hid)).2
  · exact (List.length_filter_le _ _).trans (List.length_take_le k ids)

omit hE in
theorem count_hits (ids : List String) :
    (ids.map fun id => decide (id ∈ relevantIds)).count true = (ids.filter (· ∈ relevantIds)).length := by
  induction ids with
  | nil => rfl
  | cons id ids ih =>
    by_cases hid : id ∈ relevantIds
    · simp [hid, ih]
    · simp [hid, ih]

variable (relevantIds irrelevantIds ids k) in
theorem ndcg_cases :
    (min relevantIds.card k = 0 ∧
      (E.computeQueryMetrics ids relevantIds irrelevantIds k).ndcgAtK = .finite 1) ∨
    (min relevantIds.card k ≠ 0 ∧ 0 < ideal E.gain 0 (min relevantIds.card k) ∧
      (E.computeQueryMetrics ids relevantIds irrelevantIds k).ndcgAtK =
        .finite (discounted E.gain 0 ((ids.take k).map fun id => decide (id ∈ relevantIds)) /
          ideal E.gain 0 (min relevantIds.card k))) := by
  by_cases hnone : min relevantIds.card k = 0
  · refine .inl ⟨hnone, ?_⟩
    simp only [computeQueryMetrics, idcg_eq hE, hnone]
    rfl
  · have hpos := Discount.ideal_pos (discounts hE) (i := 0) hnone
    refine .inr ⟨hnone, hpos, ?_⟩
    have hless : less (ofInt 0) (.finite (ideal E.gain 0 (min relevantIds.card k))) = true := by
      simpa [less, ofInt] using hpos
    have hzero : ofInt 0 = .finite 0 := rfl
    simp only [computeQueryMetrics, idcg_eq hE, hless, if_true]
    rw [hzero, dcg_eq hE, zero_add, div_finite hE.exact _ hpos.ne']

theorem ndcg_within (h : ids.Nodup) :
    Within 0 1 (E.computeQueryMetrics ids relevantIds irrelevantIds k).ndcgAtK := by
  rcases ndcg_cases hE relevantIds irrelevantIds ids k with ⟨-, hndcg⟩ | ⟨-, hpos, hndcg⟩
  · exact ⟨1, hndcg, by norm_num, by norm_num⟩
  · have hnonneg := Discount.discounted_nonneg (discounts hE) 0
      ((ids.take k).map fun id => decide (id ∈ relevantIds))
    have hle : discounted E.gain 0 ((ids.take k).map fun id => decide (id ∈ relevantIds)) ≤
        ideal E.gain 0 (min relevantIds.card k) :=
      Discount.discounted_le_ideal (discounts hE) (by rw [count_hits]; exact hits_le h)
    refine ⟨_, hndcg, ?_, ?_⟩
    · rw [Int.cast_zero]
      exact div_nonneg hnonneg hpos.le
    · rw [Int.cast_one]
      exact (div_le_one hpos).mpr hle

variable (relevantIds irrelevantIds k) in
/-- All that could be found is found, in front of everything else. -/
theorem ndcg_eq_one_iff (h : ids.Nodup) :
    (E.computeQueryMetrics ids relevantIds irrelevantIds k).ndcgAtK = .finite 1 ↔
      min relevantIds.card k ≤ ids.length ∧ ∀ id ∈ ids.take (min relevantIds.card k), id ∈ relevantIds := by
  rcases ndcg_cases hE relevantIds irrelevantIds ids k with ⟨hnone, hndcg⟩ | ⟨-, hpos, hndcg⟩
  · rw [hndcg, hnone]
    simp
  · have hcount : ((ids.take k).map fun id => decide (id ∈ relevantIds)).count true ≤
        min relevantIds.card k := by
      rw [count_hits]
      exact hits_le h
    have hk : min relevantIds.card k ≤ k := min_le_right _ _
    rw [hndcg, JsNum.finite.injEq, div_eq_one_iff_eq hpos.ne',
      Discount.discounted_eq_ideal_iff (discounts hE) hcount, List.length_map, List.length_take,
      ← List.map_take, List.take_take, min_eq_left hk, le_min_iff, List.forall_mem_map]
    simp only [decide_eq_true_eq, hk, true_and]

variable (relevantIds irrelevantIds k) in
theorem queryMetrics_within (h : ids.Nodup) :
    let m := E.computeQueryMetrics ids relevantIds irrelevantIds k
    ∀ x ∈ [m.precisionAtK, m.recallAtK, m.mrr, m.ndcgAtK, m.hitRateAtK], Within 0 1 x := by
  intro m x hx
  have hhits : ((ids.take k).filter (· ∈ relevantIds)).length ≤ min relevantIds.card k := hits_le h
  have hzero : Within 0 1 (ofInt 0) := ⟨0, rfl, by norm_num, by norm_num⟩
  have hone : Within 0 1 (ofInt 1) := ⟨1, rfl, by norm_num, by norm_num⟩
  simp only [List.mem_cons, List.not_mem_nil, or_false] at hx
  rcases hx with rfl | rfl | rfl | rfl | rfl
  · dsimp only [m, computeQueryMetrics]
    split_ifs with hsome
    · exact within_share hE (List.length_filter_le _ _) hsome
    · exact hzero
  · dsimp only [m, computeQueryMetrics]
    split_ifs with hsome
    · exact within_share hE (hhits.trans (min_le_left _ _)) hsome
    · exact hone
  · dsimp only [m, computeQueryMetrics]
    have hofNat : ofInt 1 = ofNat 1 := by simp [ofInt, ofNat]
    split
    · rw [hofNat]
      exact within_share hE (Nat.le_add_left 1 _) (Nat.succ_pos _)
    · exact hzero
  · exact ndcg_within hE h
  · dsimp only [m, computeQueryMetrics]
    split_ifs
    · exact hone
    · exact hzero

end Ranking

/-! ### The measures of a context -/

section Context
variable {E} (hE : E.Lawful) {relevantIds : Finset String} {l l' : List Memory}

variable (E) in
/-- The tokens of a memory. -/
def tokens (m : Memory) : ℚ := value (E.tokenCounter.count (units m.content))

variable (E) in
def relevantTokens (relevantIds : Finset String) (m : Memory) : ℚ :=
  if m.id ∈ relevantIds then E.tokens m else 0

include hE in
theorem count_eq (m : Memory) :
    E.tokenCounter.count (units m.content) = .finite (E.tokens m) ∧ 0 ≤ E.tokens m := by
  obtain ⟨q, hq, hnonneg⟩ := hE.counts (units m.content)
  rw [tokens, hq]
  exact ⟨rfl, hnonneg⟩

/-- What the loop has counted when it has started with `t` and seen `l`. -/
structure Counted (E : Evaluator σ) (relevantIds : Finset String) (l : List Memory) (t : Tally) : Prop where
  total : t.tokensTotal = .finite (l.map E.tokens).sum
  relevant : t.tokensRelevant = .finite (l.map (E.relevantTokens relevantIds)).sum
  nodup : t.seen.Nodup
  seen : ∀ key, key ∈ t.seen ↔ key ∈ l.map (duplicateKey E.platform)
  duplicates : t.duplicates + t.seen.length = l.length

include hE in
theorem counted_step {t : Tally} (h : Counted E relevantIds l t) (m : Memory) :
    Counted E relevantIds (l ++ [m]) (E.tallyMemory relevantIds t m) := by
  obtain ⟨hcount, -⟩ := count_eq hE m
  refine ⟨?_, ?_, ?_, ?_, ?_⟩
  · rw [tallyMemory, hcount, h.total]
    simp [add_finite hE.exact]
  · rw [tallyMemory, hcount, h.relevant]
    by_cases hid : m.id ∈ relevantIds
    · simp [hid, relevantTokens, add_finite hE.exact]
    · simp [hid, relevantTokens]
  · dsimp only [tallyMemory]
    split_ifs with hkey
    · exact h.nodup
    · exact List.nodup_append.mpr ⟨h.nodup, List.nodup_singleton _, by
        rintro a ha b hb rfl
        rw [List.mem_singleton.mp hb] at ha
        exact hkey ha⟩
  · intro key
    rw [List.map_append, List.mem_append, ← h.seen]
    dsimp only [tallyMemory]
    split_ifs with hkey
    · constructor
      · exact .inl
      · rintro (hin | hin)
        · exact hin
        · rw [List.map_singleton, List.mem_singleton] at hin
          rwa [hin]
    · rw [List.mem_append, List.map_singleton]
  · have hlength := h.duplicates
    dsimp only [tallyMemory]
    split_ifs <;> simp only [List.length_append, List.length_singleton] <;> omega

include hE in
theorem counted_run (results : List Memory) {t : Tally} (h : Counted E relevantIds l t) :
    Counted E relevantIds (l ++ results) (results.foldl (E.tallyMemory relevantIds) t) := by
  induction results generalizing l t with
  | nil => rwa [List.append_nil]
  | cons m results ih =>
    have hrest := ih (counted_step hE h m)
    rwa [List.append_assoc] at hrest

include hE in
variable (relevantIds) in
theorem counted_all (results : List Memory) :
    Counted E relevantIds results (results.foldl (E.tallyMemory relevantIds) {}) :=
  counted_run hE results (l := []) ⟨rfl, rfl, List.nodup_nil, fun key => by simp, rfl⟩

theorem length_seen {t : Tally} (h : Counted E relevantIds l t) :
    t.seen.length = (l.map (duplicateKey E.platform)).toFinset.card := by
  rw [← List.toFinset_card_of_nodup h.nodup]
  congr 1
  ext key
  rw [List.mem_toFinset, List.mem_toFinset, h.seen]

include hE in
theorem sum_tokens_nonneg (l : List Memory) : 0 ≤ (l.map E.tokens).sum := by
  refine List.sum_nonneg fun x hx => ?_
  obtain ⟨m, -, rfl⟩ := List.mem_map.mp hx
  exact (count_eq hE m).2

include hE in
theorem relevantTokens_nonneg (m : Memory) : 0 ≤ E.relevantTokens relevantIds m := by
  rw [relevantTokens]
  split_ifs
  · exact (count_eq hE m).2
  · exact le_refl 0

include hE in
theorem relevantTokens_le (m : Memory) : E.relevantTokens relevantIds m ≤ E.tokens m := by
  rw [relevantTokens]
  split_ifs
  · exact le_refl _
  · exact (count_eq hE m).2

include hE in
variable (relevantIds) in
theorem contextMetrics_within (results : List Memory) :
    Within 0 1 (E.computeContextMetrics results relevantIds).tokenEfficiency ∧
      Within 0 1 (E.computeContextMetrics results relevantIds).duplicateRate := by
  have hcounted := counted_all hE relevantIds results
  have hone : Within 0 1 (ofInt 1) := ⟨1, rfl, by norm_num, by norm_num⟩
  have hzero : Within 0 1 (ofInt 0) := ⟨0, rfl, by norm_num, by norm_num⟩
  constructor
  · dsimp only [computeContextMetrics]
    rw [hcounted.total, hcounted.relevant]
    split_ifs with hnone
    · exact hone
    · have hsum : (results.map E.tokens).sum ≠ 0 := by
        intro hsum
        rw [hsum] at hnone
        simp [same, ofInt] at hnone
      have hpos := lt_of_le_of_ne (sum_tokens_nonneg hE results) hsum.symm
      have hnonneg : 0 ≤ (results.map (E.relevantTokens relevantIds)).sum := by
        refine List.sum_nonneg fun x hx => ?_
        obtain ⟨m, -, rfl⟩ := List.mem_map.mp hx
        exact relevantTokens_nonneg hE m
      have hle : (results.map (E.relevantTokens relevantIds)).sum ≤ (results.map E.tokens).sum :=
        List.sum_le_sum fun m _ => relevantTokens_le hE m
      refine ⟨_, div_finite hE.exact _ hsum, ?_, ?_⟩
      · rw [Int.cast_zero]
        exact div_nonneg hnonneg hpos.le
      · rw [Int.cast_one]
        exact (div_le_one hpos).mpr hle
  · dsimp only [computeContextMetrics]
    split_ifs with hnone
    · exact hzero
    · have hduplicates := hcounted.duplicates
      exact within_share hE (by omega) (by omega)

include hE in
variable (relevantIds) in
/-- The measures of a context do not depend on its order. -/
theorem contextMetrics_perm (h : l.Perm l') :
    (E.computeContextMetrics l relevantIds).tokenEfficiency =
        (E.computeContextMetrics l' relevantIds).tokenEfficiency ∧
      (E.computeContextMetrics l relevantIds).duplicateRate =
        (E.computeContextMetrics l' relevantIds).duplicateRate := by
  have hl := counted_all hE relevantIds l
  have hl' := counted_all hE relevantIds l'
  have hkeys : (l.map (duplicateKey E.platform)).toFinset = (l'.map (duplicateKey E.platform)).toFinset :=
    List.toFinset_eq_of_perm _ _ (h.map _)
  have hduplicates : (l.foldl (E.tallyMemory relevantIds) {}).duplicates =
      (l'.foldl (E.tallyMemory relevantIds) {}).duplicates := by
    have hone := hl.duplicates
    have htwo := hl'.duplicates
    rw [length_seen hl, hkeys, h.length_eq] at hone
    rw [length_seen hl'] at htwo
    omega
  constructor
  · dsimp only [computeContextMetrics]
    rw [hl.total, hl'.total, hl.relevant, hl'.relevant, (h.map E.tokens).sum_eq,
      (h.map (E.relevantTokens relevantIds)).sum_eq, h.length_eq]
  · dsimp only [computeContextMetrics]
    rw [hduplicates, h.length_eq]

end Context

/-! ### A relevant result that moves up -/

section Swap
variable {E} (hE : E.Lawful) {relevantIds irrelevantIds : Finset String} {before after : List String}
  {x y : String} {k : ℕ}

theorem take_before {α : Type*} {before : List α} (x y : α) (after : List α) (hk : before.length + 2 ≤ k) :
    (before ++ x :: y :: after).take k = before ++ x :: y :: after.take (k - before.length - 2) := by
  obtain ⟨n, rfl⟩ := Nat.exists_eq_add_of_le hk
  have hrest : before.length + 2 + n - before.length - 2 = n := by omega
  have hlong : before.length + 2 + n = before.length + (n + 2) := by omega
  rw [hrest, hlong, List.take_length_add_append]
  rfl

theorem swap_perm {α : Type*} (before : List α) (x y : α) (after : List α) :
    (before ++ x :: y :: after).Perm (before ++ y :: x :: after) :=
  (List.Perm.swap y x after).append_left before

variable (before after) in
/-- The first relevant result does not come later. -/
theorem findIdx_swap {p : String → Bool} (hx : p x = false) (hy : p y = true) :
    ∃ i j, (before ++ x :: y :: after).findIdx? p = some i ∧ (before ++ y :: x :: after).findIdx? p = some j ∧
      j ≤ i := by
  rw [List.findIdx?_append, List.findIdx?_append]
  cases before.findIdx? p with
  | some i => exact ⟨i, i, rfl, rfl, le_refl i⟩
  | none =>
    refine ⟨1 + before.length, 0 + before.length, ?_, ?_, by omega⟩
    · simp [List.findIdx?_cons, hx, hy]
    · simp [List.findIdx?_cons, hy]

include hE in
variable (relevantIds irrelevantIds before after) in
theorem queryMetrics_swap (hx : x ∉ relevantIds) (hy : y ∈ relevantIds) (hk : before.length + 2 ≤ k) :
    let old := E.computeQueryMetrics (before ++ x :: y :: after) relevantIds irrelevantIds k
    let new := E.computeQueryMetrics (before ++ y :: x :: after) relevantIds irrelevantIds k
    new.precisionAtK = old.precisionAtK ∧ new.recallAtK = old.recallAtK ∧ new.hitRateAtK = old.hitRateAtK ∧
      less new.mrr old.mrr = false ∧ less old.ndcgAtK new.ndcgAtK = true := by
  intro old new
  have hperm : ((before ++ y :: x :: after).take k).Perm ((before ++ x :: y :: after).take k) := by
    rw [take_before _ _ _ hk, take_before _ _ _ hk]
    exact swap_perm _ _ _ _
  have hfound := (hperm.filter (· ∈ relevantIds)).length_eq
  have hlength := hperm.length_eq
  refine ⟨?_, ?_, ?_, ?_, ?_⟩
  · dsimp only [new, old, computeQueryMetrics]
    rw [hfound, hlength]
  · dsimp only [new, old, computeQueryMetrics]
    rw [hfound]
  · dsimp only [new, old, computeQueryMetrics]
    rw [hfound]
  · obtain ⟨i, j, hi, hj, hji⟩ := findIdx_swap before (after.take (k - before.length - 2))
      (p := fun id => decide (id ∈ relevantIds)) (decide_eq_false hx) (decide_eq_true hy)
    dsimp only [new, old, computeQueryMetrics]
    rw [take_before _ _ _ hk, take_before _ _ _ hk, hi, hj]
    have hipos : (0 : ℚ) < (i + 1 : ℕ) := by exact_mod_cast Nat.succ_pos i
    have hjpos : (0 : ℚ) < (j + 1 : ℕ) := by exact_mod_cast Nat.succ_pos j
    have hle : ((j + 1 : ℕ) : ℚ) ≤ (i + 1 : ℕ) := by exact_mod_cast Nat.succ_le_succ hji
    have hdiv : (1 : ℚ) / (i + 1 : ℕ) ≤ 1 / (j + 1 : ℕ) := one_div_le_one_div_of_le hjpos hle
    simp only [ofInt, ofNat, div_finite hE.exact _ hipos.ne', div_finite hE.exact _ hjpos.ne', less,
      Int.cast_one, decide_eq_false_iff_not, not_lt]
    exact hdiv
  · have hsome : min relevantIds.card k ≠ 0 := by
      have hcard := Finset.card_pos.mpr ⟨y, hy⟩
      omega
    rcases ndcg_cases hE relevantIds irrelevantIds (before ++ x :: y :: after) k with ⟨hnone, -⟩ | ⟨-, hpos, hold⟩
    · exact absurd hnone hsome
    rcases ndcg_cases hE relevantIds irrelevantIds (before ++ y :: x :: after) k with ⟨hnone, -⟩ | ⟨-, -, hnew⟩
    · exact absurd hnone hsome
    have hswap := Discount.discounted_swap (discounts hE) 0 (before.map fun id => decide (id ∈ relevantIds))
      ((after.take (k - before.length - 2)).map fun id => decide (id ∈ relevantIds))
    show less (E.computeQueryMetrics _ _ _ _).ndcgAtK (E.computeQueryMetrics _ _ _ _).ndcgAtK = true
    rw [hold, hnew, take_before _ _ _ hk, take_before _ _ _ hk, List.map_append, List.map_append,
      List.map_cons, List.map_cons, List.map_cons, List.map_cons, decide_eq_false hx, decide_eq_true hy, less,
      decide_eq_true_eq]
    exact div_lt_div_of_pos_right hswap hpos

end Swap

/-! ### The measures of an evaluation -/

end Evaluator

def QueryResult.ratios (r : QueryResult) : List JsNum :=
  [r.precisionAtK, r.recallAtK, r.mrr, r.ndcgAtK, r.hitRateAtK, r.tokenEfficiency, r.duplicateRate]

def Aggregate.ratios (a : Aggregate) : List JsNum :=
  [a.precisionAtK, a.recallAtK, a.mrr, a.ndcgAtK, a.hitRateAtK, a.tokenEfficiency, a.duplicateRate]

/-- Every measure is a number from zero to one. -/
def EvalResult.Ratios (r : EvalResult) : Prop :=
  (∀ e ∈ r.queries, ∀ x ∈ e.ratios, Within 0 1 x) ∧ ∀ x ∈ r.aggregate.ratios, Within 0 1 x

namespace Evaluator

section Laws
variable {σ : Type} {E : Evaluator σ} {k : ℕ} {q : EvalQuery} {results : List Memory} {ms : JsNum}

variable (E k q) in
/-- The gain is ideal exactly where the first results are relevant, as many as there can be. -/
def NdcgLaw : Prop := ∀ results ms, (results.map (·.id)).Nodup →
  let n := min q.relevantIds.toFinset.card k
  ((E.measured k q results ms).ndcgAtK = .finite 1 ↔
    n ≤ results.length ∧ ∀ m ∈ results.take n, m.id ∈ q.relevantIds)

variable (E k q) in
/-- A relevant result that changes places with an irrelevant one before it. -/
def SwapLaw : Prop := ∀ before irrelevant relevant after ms,
  ((before ++ irrelevant :: relevant :: after).map (·.id)).Nodup →
  irrelevant.id ∉ q.relevantIds → relevant.id ∈ q.relevantIds → before.length + 2 ≤ k →
  let old := E.measured k q (before ++ irrelevant :: relevant :: after) ms
  let new := E.measured k q (before ++ relevant :: irrelevant :: after) ms
  (new.precisionAtK = old.precisionAtK ∧ new.recallAtK = old.recallAtK ∧ new.hitRateAtK = old.hitRateAtK ∧
    new.tokenEfficiency = old.tokenEfficiency ∧ new.duplicateRate = old.duplicateRate) ∧
  less new.mrr old.mrr = false ∧ less old.ndcgAtK new.ndcgAtK = true

theorem measured_within (hE : E.Lawful) (h : (results.map (·.id)).Nodup) :
    ∀ x ∈ (E.measured k q results ms).ratios, Within 0 1 x := by
  have hquery := queryMetrics_within hE q.relevantIds.toFinset (q.irrelevantIds.getD []).toFinset k h
  have hcontext := contextMetrics_within hE q.relevantIds.toFinset (results.take k)
  dsimp only at hquery
  simp only [List.forall_mem_cons] at hquery
  simp only [QueryResult.ratios, measured, List.forall_mem_cons]
  exact ⟨hquery.1, hquery.2.1, hquery.2.2.1, hquery.2.2.2.1, hquery.2.2.2.2.1, hcontext.1, hcontext.2,
    fun x hx => absurd hx List.not_mem_nil⟩

theorem ndcgLaw (hE : E.Lawful) : E.NdcgLaw k q := by
  intro results ms h n
  have hlaw := ndcg_eq_one_iff hE q.relevantIds.toFinset (q.irrelevantIds.getD []).toFinset k h
  rw [List.length_map, ← List.map_take, List.forall_mem_map] at hlaw
  simp only [List.mem_toFinset] at hlaw
  exact hlaw

theorem swapLaw (hE : E.Lawful) : E.SwapLaw k q := by
  intro before irrelevant relevant after ms h hirrelevant hrelevant hk old new
  have hquery := queryMetrics_swap hE q.relevantIds.toFinset (q.irrelevantIds.getD []).toFinset
    (before.map (·.id)) (after.map (·.id)) (x := irrelevant.id) (y := relevant.id) (k := k)
    (by simpa using hirrelevant) (by simpa using hrelevant) (by simpa using hk)
  have hperm : ((before ++ relevant :: irrelevant :: after).take k).Perm
      ((before ++ irrelevant :: relevant :: after).take k) := by
    rw [take_before _ _ _ hk, take_before _ _ _ hk]
    exact swap_perm _ _ _ _
  have hcontext := contextMetrics_perm hE q.relevantIds.toFinset hperm
  simp only [new, old, measured, List.map_append, List.map_cons]
  obtain ⟨hprecision, hrecall, hhit, hmrr, hndcg⟩ := hquery
  exact ⟨⟨hprecision, hrecall, hhit, hcontext.1, hcontext.2⟩, hmrr, hndcg⟩

/-- The sum of ratios, on top of a number. -/
theorem foldl_add_within (hE : E.Lawful) {values : List JsNum} (h : ∀ x ∈ values, Within 0 1 x) (total : ℚ) :
    ∃ sum : ℚ, values.foldl E.floats.add (.finite total) = .finite sum ∧ total ≤ sum ∧
      sum ≤ total + values.length := by
  induction values generalizing total with
  | nil => exact ⟨total, rfl, le_refl _, by simp⟩
  | cons x values ih =>
    rw [List.forall_mem_cons] at h
    obtain ⟨⟨a, rfl, hlow, hhigh⟩, hrest⟩ := h
    obtain ⟨sum, hsum, hfrom, hto⟩ := ih hrest (total + a)
    push_cast at hlow hhigh
    refine ⟨sum, ?_, by linarith, ?_⟩
    · rw [List.foldl_cons, add_finite hE.exact, hsum]
    · rw [List.length_cons]
      push_cast
      linarith

/-- The mean of ratios is one, if there is any. -/
theorem agg_within (hE : E.Lawful) {values : List JsNum} (h : ∀ x ∈ values, Within 0 1 x)
    (hne : values ≠ []) : Within 0 1 (E.agg values) := by
  obtain ⟨sum, hsum, hfrom, hto⟩ := foldl_add_within hE h 0
  have hlength : (0 : ℚ) < values.length := by exact_mod_cast List.length_pos_of_ne_nil hne
  have hzero : ofInt 0 = .finite 0 := rfl
  refine ⟨sum / values.length, ?_, ?_, ?_⟩
  · rw [agg, hzero, hsum, ofNat, div_finite hE.exact _ hlength.ne']
  · rw [Int.cast_zero]
    exact div_nonneg hfrom hlength.le
  · rw [Int.cast_one]
    exact (div_le_one hlength).mpr (by linarith)

/-- The mean of nothing. -/
theorem agg_nil : E.agg [] = .nan := by
  simp [agg, ofInt, ofNat, Floats.div]

/-- The first query is answered, and then the others are. -/
theorem evaluateQueries_cons (q : EvalQuery) (queries : List EvalQuery) (s : σ) :
    ∃ latency ms asked later, ((E.evaluateQueries k (q :: queries)).run s).1 =
      (latency, E.measured k q ((E.searchFn q.text).run asked).1 ms) ::
        ((E.evaluateQueries k queries).run later).1 :=
  ⟨_, _, _, _, rfl⟩

/-- Each query is measured, by what the search has answered. -/
theorem evaluateQueries_spec (hE : E.Lawful) (queries : List EvalQuery) (s : σ) :
    ((E.evaluateQueries k queries).run s).1.length = queries.length ∧
      ∀ e ∈ ((E.evaluateQueries k queries).run s).1, ∃ q ∈ queries, ∃ results ms,
        (results.map (·.id)).Nodup ∧ e.2 = E.measured k q results ms := by
  induction queries generalizing s with
  | nil => exact ⟨rfl, fun e he => absurd he List.not_mem_nil⟩
  | cons q queries ih =>
    obtain ⟨latency, ms, asked, later, hrun⟩ := evaluateQueries_cons (E := E) (k := k) q queries s
    obtain ⟨hlength, hmeasured⟩ := ih later
    rw [hrun]
    refine ⟨by rw [List.length_cons, hlength, List.length_cons], fun e he => ?_⟩
    rcases List.mem_cons.mp he with rfl | he
    · exact ⟨q, List.mem_cons_self, _, ms, hE.distinct q.text asked, rfl⟩
    · obtain ⟨q', hq', results, ms', hnodup, heq⟩ := hmeasured e he
      exact ⟨q', List.mem_cons_of_mem q hq', results, ms', hnodup, heq⟩

/-- The measures of the queries, and those of the aggregate, which are their means. -/
theorem evaluate_spec (hE : E.Lawful) (queries : List EvalQuery) (s : σ) :
    let r := ((E.evaluate k queries).run s).1
    r.queries.length = queries.length ∧ (∀ e ∈ r.queries, ∀ x ∈ e.ratios, Within 0 1 x) ∧
      ∀ x ∈ r.aggregate.ratios, ∃ f : QueryResult → JsNum, x = E.agg (r.queries.map f) ∧
        ∀ e ∈ r.queries, f e ∈ e.ratios := by
  obtain ⟨hlength, hmeasured⟩ := evaluateQueries_spec (k := k) hE queries s
  intro r
  refine ⟨(List.length_map ..).trans hlength, ?_, ?_⟩
  · intro e he
    obtain ⟨p, hp, rfl⟩ := List.mem_map.mp he
    obtain ⟨q, -, results, ms, hnodup, heq⟩ := hmeasured p hp
    rw [heq]
    exact measured_within hE hnodup
  · intro x hx
    simp only [Aggregate.ratios, List.mem_cons, List.not_mem_nil, or_false] at hx
    rcases hx with rfl | rfl | rfl | rfl | rfl | rfl | rfl
    · exact ⟨(·.precisionAtK), rfl, fun e _ => by simp [QueryResult.ratios]⟩
    · exact ⟨(·.recallAtK), rfl, fun e _ => by simp [QueryResult.ratios]⟩
    · exact ⟨(·.mrr), rfl, fun e _ => by simp [QueryResult.ratios]⟩
    · exact ⟨(·.ndcgAtK), rfl, fun e _ => by simp [QueryResult.ratios]⟩
    · exact ⟨(·.hitRateAtK), rfl, fun e _ => by simp [QueryResult.ratios]⟩
    · exact ⟨(·.tokenEfficiency), rfl, fun e _ => by simp [QueryResult.ratios]⟩
    · exact ⟨(·.duplicateRate), rfl, fun e _ => by simp [QueryResult.ratios]⟩

end Laws

/-! ### An evaluation for examples -/

/-- The logarithm to base two at the powers of two, and lines between them. -/
def interpolatedLog2 (n : ℕ) : ℚ := Nat.log 2 n + ((n : ℚ) / 2 ^ Nat.log 2 n - 1)

/-- A search that always finds the same, in no time. -/
def plainEvaluator (results : List Memory) : Evaluator Unit where
  platform := plainPlatform
  log2
    | .finite q => .finite (interpolatedLog2 q.num.toNat)
    | a => a
  searchFn _ := pure results
  now := pure (ofInt 0)

theorem interpolatedLog2_mem {n : ℕ} (hn : n ≠ 0) :
    (Nat.log 2 n : ℚ) ≤ interpolatedLog2 n ∧ interpolatedLog2 n < Nat.log 2 n + 1 := by
  have hpos : (0 : ℚ) < 2 ^ Nat.log 2 n := by positivity
  have hlow : (2 : ℚ) ^ Nat.log 2 n ≤ n := by exact_mod_cast Nat.pow_log_le_self 2 hn
  have hhigh : (n : ℚ) < 2 ^ (Nat.log 2 n + 1) := by
    exact_mod_cast Nat.lt_pow_succ_log_self (by decide) n
  rw [pow_succ] at hhigh
  have hone : 1 ≤ (n : ℚ) / 2 ^ Nat.log 2 n := (one_le_div hpos).mpr hlow
  have htwo : (n : ℚ) / 2 ^ Nat.log 2 n < 2 := by
    rw [div_lt_iff₀ hpos]
    linarith
  rw [interpolatedLog2]
  constructor <;> linarith

theorem interpolatedLog2_lt {m n : ℕ} (hm : m ≠ 0) (h : m < n) : interpolatedLog2 m < interpolatedLog2 n := by
  rcases (Nat.log_mono_right h.le : Nat.log 2 m ≤ Nat.log 2 n).eq_or_lt with hlog | hlog
  · -- They lie on one line.
    have hpos : (0 : ℚ) < 2 ^ Nat.log 2 n := by positivity
    have hcast : (m : ℚ) < n := by exact_mod_cast h
    have hdiv := div_lt_div_of_pos_right hcast hpos
    rw [interpolatedLog2, interpolatedLog2, hlog]
    linarith
  · -- There is a power of two between them.
    have hbelow := (interpolatedLog2_mem hm).2
    have habove := (interpolatedLog2_mem (Nat.ne_zero_of_lt h)).1
    have hcast : (Nat.log 2 m : ℚ) + 1 ≤ Nat.log 2 n := by exact_mod_cast hlog
    linarith

theorem plainEvaluator_log2 (results : List Memory) (n : ℕ) :
    (plainEvaluator results).log2 (ofNat n) = .finite (interpolatedLog2 n) := by
  simp [plainEvaluator, ofNat]

theorem plainEvaluator_lawful {results : List Memory} (h : (results.map (·.id)).Nodup) :
    (plainEvaluator results).Lawful where
  exact := plainPlatform_exact
  log2_pos := by
    intro n hn
    have hone : (1 : ℚ) ≤ Nat.log 2 n := by exact_mod_cast Nat.log_pos (by decide) hn
    have hlog := (interpolatedLog2_mem (n := n) (by omega)).1
    exact ⟨_, plainEvaluator_log2 results n, by linarith⟩
  log2_strict := by
    intro m n p q hm h hp hq
    rw [plainEvaluator_log2, JsNum.finite.injEq] at hp hq
    rw [← hp, ← hq]
    exact interpolatedLog2_lt (by omega) h
  counts := Service.defaultTokenCounter_monotone.finite
  distinct := fun _ _ => h

end Evaluator

end Remembra.Retrieval
