import Remembra.Retrieval.Diversity

/-! When a search answers, and how much: it refuses a budget and weights that are not valid and nothing
    else, it reports on a budget exactly where there is one, and it has no more results than the limit,
    which the budget's own number of items stands in for. -/

namespace Remembra.Retrieval
open Store (Memory JsNum)

section Limit
variable {P : Platform} {now : ℤ} {memories : List Memory} {q : SearchQuery}
  {queryVec : Option (List JsNum)} {policy : RetrievalPolicy} {elapsed : ℕ → JsNum} {r : SearchResults}
  {ranked : List Memory}

/-- The weights of the policy, if it has any, are valid. -/
def validWeights (P : Platform) (policy : RetrievalPolicy) : Prop :=
  policy.fusionWeights.isSome = true → assertValidFusionWeights (fusionWeights P policy) = .ok ()

/-- The budget, if there is one, has no bound below one. -/
def validBudget (budget : Option RetrievalBudget) : Prop :=
  ∀ b, budget = some b → assertValidBudget b = .ok ()

variable (P now memories q queryVec policy elapsed) in
/-- What the search answers when it refuses nothing. -/
def searchResults : SearchResults :=
  let ranked := (deduped P now memories q queryVec policy).memories
  let selected := selection P q queryVec policy ranked
  let cut := q.budget.map fun budget => applyBudget P elapsed budget (effectiveLimit q) selected
  let results := (cut.map (·.1)).getD selected
  let explained := (gated P now memories q queryVec policy).filter fun e => e.m.id ∈ results.map (·.id)
  { results := results
    explanations := if q.explain then some (explained.map (buildExplanation P)) else none
    budget := cut.map (·.2) }

/-- Two checks, and an answer that is there. -/
theorem checks_eq_ok {ε α : Type} {x y : Except ε Unit} {a b : α} :
    (x.bind fun _ => y.bind fun _ => .ok a) = .ok b ↔ (x = .ok () ∧ y = .ok ()) ∧ b = a := by
  cases x with
  | error e => simp [Except.bind]
  | ok u =>
    cases y with
    | error e => simp [Except.bind]
    | ok u => simp [Except.bind, eq_comm]

/-- The two checks, and then the answer. -/
theorem searchQ_eq : searchQ P now memories q queryVec policy elapsed =
    (q.budget.elim (.ok ()) assertValidBudget).bind fun _ =>
      (if policy.fusionWeights.isSome then assertValidFusionWeights (fusionWeights P policy)
        else .ok ()).bind fun _ => .ok (searchResults P now memories q queryVec policy elapsed) := by
  rw [searchQ]
  cases policy.fusionWeights.isSome with
  | true => rfl
  | false => rfl

theorem searchQ_eq_ok : searchQ P now memories q queryVec policy elapsed = .ok r ↔
    (validBudget q.budget ∧ validWeights P policy) ∧
      r = searchResults P now memories q queryVec policy elapsed := by
  have hbudget : q.budget.elim (.ok ()) assertValidBudget = .ok () ↔ validBudget q.budget := by
    cases q.budget with
    | none => exact iff_of_true rfl fun _ h => by cases h
    | some b => exact ⟨fun h c hc => Option.some.inj hc ▸ h, fun h => h b rfl⟩
  have hweights : (if policy.fusionWeights.isSome then assertValidFusionWeights (fusionWeights P policy)
      else .ok ()) = .ok () ↔ validWeights P policy := by
    rw [validWeights]
    split_ifs with hsome
    · exact ⟨fun h _ => h, fun h => h hsome⟩
    · exact iff_of_true rfl fun h => absurd h hsome
  rw [← hbudget, ← hweights, searchQ_eq]
  exact checks_eq_ok

theorem budget_of_searchQ (h : searchQ P now memories q queryVec policy elapsed = .ok r) :
    r.budget.isSome = q.budget.isSome := by
  rw [(searchQ_eq_ok.mp h).2]
  simp [searchResults]

theorem length_mmrDedup_le (v : List JsNum) (n : ℕ) : (mmrDedup P ranked v n).length ≤ n := by
  rw [mmrDedup]
  split_ifs
  · exact List.length_take_le _ _
  · obtain ⟨out, hout, -, hlength⟩ := exists_append_rounds P v n ([], ranked)
    rw [hout, List.nil_append, hlength]
    exact min_le_left _ _

/-- Without a budget, the results are as many as the limit has room for at most. -/
theorem length_results_le (hbudget : q.budget = none)
    (h : searchQ P now memories q queryVec policy elapsed = .ok r) :
    r.results.length ≤ q.limit.getD 10 := by
  have heffective : effectiveLimit q = q.limit.getD 10 := by
    simp [effectiveLimit, hbudget]
  have hresults : r.results =
      selection P q queryVec policy (deduped P now memories q queryVec policy).memories := by
    rw [(searchQ_eq_ok.mp h).2]
    simp [searchResults, hbudget]
  rw [hresults, ← heffective, selection, hbudget]
  split
  · exact length_mmrDedup_le _ _
  · exact List.length_take_le _ _

end Limit

end Remembra.Retrieval
