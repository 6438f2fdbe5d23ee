import Remembra.Retrieval.Limit
import Remembra.Retrieval.Standing

/-! What a budget leaves of a selection, and what its report says of that. The loop admits a prefix, and it
    names a bound exactly where one that was supplied stands against the next memory. But a budget also
    changes what is selected: with one the whole ranking is to be diversified and then cut, and
    `mmrDedup` hands a list back as it is that is no longer than the limit. -/

namespace Remembra.Retrieval
open Store (Memory JsNum)

/-- The UTF-8 size of what is returned. -/
def contentBytes (l : List Memory) : ℕ := (l.map fun m => m.content.utf8ByteSize).sum

section Admitted
variable {elapsed : ℕ → JsNum} {budget : RetrievalBudget} {limit : ℕ} {a : Admitted}
  {l : List Memory}

variable (elapsed budget) in
/-- The bound is supplied and stands against the memory that comes next. -/
inductive Refuses (kept : List Memory) (next : Memory) : String → Prop
  | maxItems {n : ℤ} : budget.maxItems = some n → n.toNat ≤ kept.length → Refuses kept next "maxItems"
  | maxLatency {ms : ℤ} : budget.maxLatencyMs = some ms → kept ≠ [] →
      atMost (ofInt ms) (elapsed (kept.length - 1)) = true → Refuses kept next "maxLatency"
  | maxBytes {b : ℤ} : budget.maxBytes = some b → kept ≠ [] →
      b < ((contentBytes kept + next.content.utf8ByteSize : ℕ) : ℤ) → Refuses kept next "maxBytes"

variable (elapsed budget limit) in
/-- How the loop can end before the next memory: with the limit, which is not named where the budget has
    no number of items, or with a bound. -/
inductive Stops (kept : List Memory) (next : Memory) : List String → Prop
  | limit : limit ≤ kept.length → budget.maxItems = none → Stops kept next []
  | bound {name : String} : (budget.maxItems = none → kept.length < limit) →
      Refuses elapsed budget kept next name → Stops kept next [name]

/-- The bytes fit, or the first memory alone does not. -/
def FitsBytes (budget : RetrievalBudget) (kept : List Memory) : Prop :=
  ∀ b, budget.maxBytes = some b → 1 < kept.length → (contentBytes kept : ℤ) ≤ b

theorem contentBytes_concat (kept : List Memory) (m : Memory) :
    contentBytes (kept ++ [m]) = contentBytes kept + m.content.utf8ByteSize := by
  simp [contentBytes]

variable (elapsed budget limit a l) in
/-- The loop takes what it admits from the front, within the limit and the bytes, and it has either
    reached the end or a bound. -/
theorem admitted_spec (hlimit : ∀ n, budget.maxItems = some n → limit = n.toNat)
    (hbytes : a.bytes = contentBytes a.kept) (hkept : a.kept.length ≤ limit) (hnone : a.truncatedBy = [])
    (hfits : FitsBytes budget a.kept) :
    ∃ taken rest, l = taken ++ rest ∧ (admitted elapsed budget limit a l).kept = a.kept ++ taken ∧
      (admitted elapsed budget limit a l).bytes = contentBytes (a.kept ++ taken) ∧
      (a.kept ++ taken).length ≤ limit ∧ FitsBytes budget (a.kept ++ taken) ∧
      ((rest = [] ∧ (admitted elapsed budget limit a l).truncatedBy = []) ∨
        ∃ next rest', rest = next :: rest' ∧ Stops elapsed budget limit (a.kept ++ taken) next
          (admitted elapsed budget limit a l).truncatedBy) := by
  induction l generalizing a with
  | nil => exact ⟨[], [], rfl, by simp [admitted], by simp [admitted, hbytes], by simpa using hkept,
      by simpa using hfits, .inl ⟨rfl, by simpa [admitted] using hnone⟩⟩
  | cons m l ih =>
    have hstop (names : List String) (h : Stops elapsed budget limit a.kept m names) :
        ∃ taken rest, m :: l = taken ++ rest ∧ a.kept = a.kept ++ taken ∧
          a.bytes = contentBytes (a.kept ++ taken) ∧ (a.kept ++ taken).length ≤ limit ∧
          FitsBytes budget (a.kept ++ taken) ∧ ((rest = [] ∧ names = []) ∨
            ∃ next rest', rest = next :: rest' ∧ Stops elapsed budget limit (a.kept ++ taken) next names) :=
      ⟨[], m :: l, rfl, by simp, by simp [hbytes], by simpa using hkept, by simpa using hfits,
        .inr ⟨m, l, rfl, by simpa using h⟩⟩
    rw [admitted]
    by_cases hfull : limit ≤ a.kept.length
    · rw [if_pos hfull]
      cases hitems : budget.maxItems with
      | none => exact hstop [] (.limit hfull hitems)
      | some n =>
        exact hstop ["maxItems"] (.bound (fun h => by simp [hitems] at h)
          (.maxItems hitems (hlimit n hitems ▸ hfull)))
    · rw [if_neg hfull]
      have hroom : budget.maxItems = none → a.kept.length < limit := fun _ => Nat.lt_of_not_le hfull
      by_cases hlate : (decide (a.kept ≠ []) && budget.maxLatencyMs.any
          fun ms => atMost (ofInt ms) (elapsed (a.kept.length - 1))) = true
      · rw [if_pos hlate]
        obtain ⟨hne, hlate⟩ := Bool.and_eq_true_iff.mp hlate
        obtain ⟨ms, hms, hreached⟩ := (Option.any_eq_true _ _).mp hlate
        exact hstop ["maxLatency"] (.bound hroom (.maxLatency hms (of_decide_eq_true hne) hreached))
      · rw [if_neg hlate]
        by_cases hlarge : (decide (a.kept ≠ []) && budget.maxBytes.any
            fun b => b < ((a.bytes + m.content.utf8ByteSize : ℕ) : ℤ)) = true
        · rw [if_pos hlarge]
          obtain ⟨hne, hlarge⟩ := Bool.and_eq_true_iff.mp hlarge
          obtain ⟨b, hb, hover⟩ := (Option.any_eq_true _ _).mp hlarge
          rw [hbytes] at hover
          exact hstop ["maxBytes"] (.bound hroom (.maxBytes hb (of_decide_eq_true hne)
            (of_decide_eq_true hover)))
        · rw [if_neg hlarge]
          have hfits' : FitsBytes budget (a.kept ++ [m]) := by
            intro b hb hmany
            have hne : a.kept ≠ [] := fun hnil => by simp [hnil] at hmany
            rw [contentBytes_concat, ← hbytes]
            simpa [hb, hne] using hlarge
          obtain ⟨taken, rest, hl, hkept', hbytes', hlength, hfits'', hend⟩ :=
            ih (a := ⟨a.kept ++ [m], a.bytes + m.content.utf8ByteSize, []⟩)
              (by rw [contentBytes_concat, hbytes]) (by rw [List.length_append]; exact Nat.lt_of_not_le hfull)
              rfl hfits'
          simp only [List.append_assoc, List.singleton_append] at hkept' hbytes' hlength hfits'' hend
          exact ⟨m :: taken, rest, by rw [hl, List.cons_append], hkept', hbytes', hlength, hfits'', hend⟩

end Admitted

/-! ### The report -/

section Report
variable {P : Platform} {elapsed : ℕ → JsNum} {budget : RetrievalBudget} {limit : ℕ}
  {ordered results : List Memory} {report : BudgetReport}

variable (elapsed budget limit ordered results) in
/-- A bound of the budget has taken the next memory away: the plain limit, where the budget has no number
    of items, would have left room for it. -/
def Removed (name : String) : Prop :=
  ∃ next rest, ordered = results ++ next :: rest ∧ (budget.maxItems = none → results.length < limit) ∧
    Refuses elapsed budget results next name

variable (elapsed budget limit ordered results report) in
/-- What is returned of an ordered selection under a budget, and what the report says of it. -/
structure BudgetLaws : Prop where
  front : results <+: ordered
  count : results.length ≤ (budget.maxItems.map Int.toNat).getD limit
  size : ∀ b, budget.maxBytes = some b → results.length ≠ 1 → (contentBytes results : ℤ) ≤ b
  first : (budget.maxItems = none → limit ≠ 0) → ordered ≠ [] → results ≠ []
  items : report.items = results.length
  bytes : report.bytes = contentBytes results
  truncated : report.truncated = true ↔ ∃ name, Removed elapsed budget limit ordered results name
  named : ∀ name ∈ report.truncatedBy, Removed elapsed budget limit ordered results name
  complete : report.truncated = false →
    results = if budget.maxItems.isSome then ordered else ordered.take limit

/-- A bound of a valid budget is positive. -/
theorem one_le_of_valid (h : assertValidBudget budget = .ok ()) {name : String} {n : ℤ}
    (hn : (name, some n) ∈ budget.named) : 1 ≤ n := by
  rw [assertValidBudget] at h
  split at h
  · cases h
  · next hnone =>
    have hbound := List.find?_eq_none.mp hnone _ hn
    simpa using hbound

variable (limit) in
/-- With a bound that is positive, something is admitted. -/
theorem ne_nil_of_stops {next : Memory} {names : List String}
    (hvalid : assertValidBudget budget = .ok ()) (hpos : budget.maxItems = none → limit ≠ 0)
    (h : Stops elapsed budget limit results next names) : results ≠ [] := by
  cases h with
  | limit hfull hnone =>
    intro hnil
    rw [hnil, List.length_nil, Nat.le_zero] at hfull
    exact hpos hnone hfull
  | bound _ hrefuses =>
    cases hrefuses with
    | @maxItems n hn hfull =>
      intro hnil
      have hn1 := one_le_of_valid hvalid (show ("maxItems", some n) ∈ budget.named by simp [RetrievalBudget.named, hn])
      rw [hnil, List.length_nil] at hfull
      omega
    | maxLatency _ hne _ => exact hne
    | maxBytes _ hne _ => exact hne

variable (P elapsed limit ordered) in
theorem budgetLaws_applyBudget (hvalid : assertValidBudget budget = .ok ()) :
    BudgetLaws elapsed budget limit ordered
      (applyBudget P elapsed budget ((budget.maxItems.map Int.toNat).getD limit) ordered).1
      (applyBudget P elapsed budget ((budget.maxItems.map Int.toNat).getD limit) ordered).2 := by
  have heffective : budget.maxItems = none → (budget.maxItems.map Int.toNat).getD limit = limit :=
    fun hnone => by rw [hnone]; rfl
  obtain ⟨taken, rest, hordered, hkept, hbytes, hcount, hfits, hend⟩ :=
    admitted_spec elapsed budget ((budget.maxItems.map Int.toNat).getD limit) {} ordered
      (fun n hn => by rw [hn]; rfl) rfl (Nat.zero_le _) rfl
      (fun b _ hmany => absurd hmany (by simp))
  simp only [List.nil_append] at hkept hbytes hcount hfits hend
  have hsize : ∀ b, budget.maxBytes = some b → taken.length ≠ 1 → (contentBytes taken : ℤ) ≤ b := by
    intro b hb hone
    have hb1 := one_le_of_valid hvalid (show ("maxBytes", some b) ∈ budget.named by simp [RetrievalBudget.named, hb])
    rcases Nat.lt_or_ge 1 taken.length with hmany | hfew
    · exact hfits b hb hmany
    · obtain rfl : taken = [] := List.length_eq_zero_iff.mp (by omega)
      simp only [contentBytes, List.map_nil, List.sum_nil]
      omega
  rcases hend with ⟨rfl, hnames⟩ | ⟨next, rest', rfl, hstops⟩
  · obtain rfl : ordered = taken := by rw [hordered, List.append_nil]
    have hnone : ∀ name, ¬ Removed elapsed budget limit ordered ordered name := by
      rintro name ⟨next, rest, hsplit, -⟩
      have hlength := congrArg List.length hsplit
      simp at hlength
    simp only [applyBudget, hkept, hbytes, hnames, lt_irrefl, decide_false, Bool.false_and,
      Bool.false_eq_true, if_false]
    refine ⟨List.prefix_refl _, hcount, hsize, fun _ h => h, rfl, rfl, ?_, (fun name h => by cases h), fun _ => ?_⟩
    · exact ⟨(fun h => by cases h), fun ⟨name, h⟩ => absurd h (hnone name)⟩
    · cases hitems : budget.maxItems with
      | none => rw [if_neg (by simp), List.take_of_length_le (by simpa [hitems] using hcount)]
      | some n => rfl
  · generalize hnames : (admitted elapsed budget ((budget.maxItems.map Int.toNat).getD limit) {}
      ordered).truncatedBy = names at hstops
    have hfirst : (budget.maxItems = none → limit ≠ 0) → ordered ≠ [] → taken ≠ [] := fun hpos _ =>
      ne_nil_of_stops ((budget.maxItems.map Int.toNat).getD limit) hvalid
        (fun hnone => (heffective hnone).symm ▸ hpos hnone) hstops
    have hshort : taken.length < ordered.length := by
      rw [hordered, List.length_append, List.length_cons]
      omega
    simp only [applyBudget, hkept, hbytes, hnames]
    cases hstops with
    | limit hfull hnone =>
      have hplain : taken = ordered.take limit := by
        rw [heffective hnone] at hfull hcount
        rw [hordered, List.take_append_of_le_length hfull, List.take_of_length_le hcount]
      have hnever : ∀ name, ¬ Removed elapsed budget limit ordered taken name := by
        rintro name ⟨-, -, -, hroom, -⟩
        exact absurd (hroom hnone) (Nat.not_lt.mpr (heffective hnone ▸ hfull))
      simp only [hnone, Option.isSome_none, Bool.and_false, Bool.false_eq_true, if_false]
      exact ⟨⟨_, hordered.symm⟩, by simpa [hnone] using hcount, hsize, hfirst, rfl, rfl,
        ⟨fun h => by simp at h, fun ⟨name, h⟩ => absurd h (hnever name)⟩, fun name h => by simp at h,
        fun _ => by simpa [hnone] using hplain⟩
    | @bound name hroom hrefuses =>
      have hremoved : Removed elapsed budget limit ordered taken name :=
        ⟨next, rest', hordered, fun hnone => heffective hnone ▸ hroom hnone, hrefuses⟩
      simp only [List.cons_ne_self, decide_false, Bool.and_false, Bool.false_and,
        Bool.false_eq_true, if_false]
      exact ⟨⟨_, hordered.symm⟩, hcount, hsize, hfirst, rfl, rfl,
        ⟨fun _ => ⟨name, hremoved⟩, fun _ => by simp⟩,
        fun other hother => List.mem_singleton.mp hother ▸ hremoved, fun h => by simp at h⟩

end Report

section SearchQ
variable {P : Platform} {now : ℤ} {memories : List Memory} {q : SearchQuery}
  {queryVec : Option (List JsNum)} {policy : RetrievalPolicy} {elapsed : ℕ → JsNum}
  {budget : RetrievalBudget}

variable (P now memories q queryVec policy) in
/-- What the budget is applied to. -/
def orderedSelection : List Memory :=
  selection P q queryVec policy (deduped P now memories q queryVec policy).memories

theorem effectiveLimit_of_budget (h : q.budget = some budget) :
    effectiveLimit q = (budget.maxItems.map Int.toNat).getD (q.limit.getD 10) := by
  rw [effectiveLimit, h, Option.bind_some]

/-- With a budget the whole ranking is the selection: `mmrDedup` has room for all of it. -/
theorem selection_of_budget (h : q.budget = some budget) : selection P q queryVec policy ranked = ranked := by
  rw [selection, h]
  split
  · have hall : ranked.take (max (max (effectiveLimit q * 10) 100) ranked.length) = ranked :=
      List.take_of_length_le (le_max_right _ _)
    simp only [Option.isSome_some, if_true, hall, mmrDedup, le_refl, decide_true, Bool.true_or]
    exact List.take_length
  · rfl

/-- With or without a budget the answer has different memories of the pool. Each passes the gates, and none
    has a replacement there unless superseded ones are asked for. -/
theorem searchQ_answers (h : WellFormed memories) {r : SearchResults}
    (hr : searchQ P now memories q queryVec {} elapsed = .ok r) :
    r.results.Nodup ∧ ∀ m ∈ r.results, IsRanked P memories q queryVec {} m ∧
      (q.includeSuperseded = true ∨ replacement memories m = none) := by
  have hranked : r.results.Subperm (deduped P now memories q queryVec {}).memories := by
    obtain ⟨⟨hvalid, -⟩, hresults⟩ := searchQ_eq_ok.mp hr
    cases hbudget : q.budget with
    | none =>
      rw [results_eq hbudget hr]
      exact (selected_subperm hbudget).trans (List.take_sublist _ _).subperm
    | some budget =>
      have hlaws := budgetLaws_applyBudget P elapsed (q.limit.getD 10)
        (deduped P now memories q queryVec {}).memories (hvalid budget hbudget)
      rw [hresults, searchResults, hbudget, selection_of_budget hbudget, effectiveLimit_of_budget hbudget]
      exact hlaws.front.sublist.subperm
  refine ⟨?_, fun m hm => mem_currentRanking.mp (deduped_sublist.subset (hranked.subset hm))⟩
  obtain ⟨l, hperm, hsub⟩ := hranked
  exact hperm.nodup_iff.mp (((List.nodup_append.mp (nodup_deduped h)).1.of_map _).sublist hsub)

theorem searchQ_answers_twoRules : ∃ r,
    searchQ plainPlatform 0 twoRules { limit := some 2 } none {} (fun _ => ofInt 0) = .ok r ∧
      r.results.Nodup := by
  obtain ⟨r, hr⟩ : ∃ r, searchQ plainPlatform 0 twoRules { limit := some 2 } none {} (fun _ => ofInt 0) =
    .ok r := ⟨_, rfl⟩
  exact ⟨r, hr, (searchQ_answers wellFormed_twoRules hr).1⟩

def twoNotes : List Memory :=
  [plainMemory "a" "The port is 80." "global", plainMemory "b" "The host is up." "global"]

/-- Five bytes, and a limit. -/
def fiveBytes (limit : Option ℕ) : SearchQuery := { limit := limit, budget := some { maxBytes := some 5 } }

end SearchQ

/-! ### A number of items and a limit -/

section Items
variable {P : Platform} {now : ℤ} {memories ranked : List Memory} {q : SearchQuery} {n : ℕ}
  {queryVec : Option (List JsNum)} {policy : RetrievalPolicy} {elapsed : ℕ → JsNum} {budget : RetrievalBudget}

def SearchQuery.withItems (q : SearchQuery) (n : ℕ) : SearchQuery :=
  { q with budget := some { maxItems := some n } }

def SearchQuery.withLimit (q : SearchQuery) (n : ℕ) : SearchQuery :=
  { q with limit := some n, budget := none }

theorem deduped_withItems : deduped P now memories (q.withItems n) queryVec policy =
    deduped P now memories (q.withLimit n) queryVec policy := rfl

theorem validBudget_withItems (hn : 1 ≤ n) : validBudget (q.withItems n).budget := by
  rintro _ ⟨⟩
  have hn' : ¬ (n : ℤ) < 1 := by omega
  simp [assertValidBudget, RetrievalBudget.named, hn']

/-- A budget of items alone takes as many from the front. -/
theorem results_withItems (hn : 1 ≤ n) :
    (searchResults P now memories (q.withItems n) queryVec policy elapsed).results =
      (deduped P now memories (q.withLimit n) queryVec policy).memories.take n := by
  have hvalid : assertValidBudget { maxItems := some (n : ℤ) } = .ok () := validBudget_withItems (q := q) hn _ rfl
  have hlaws := budgetLaws_applyBudget P elapsed 10
    (deduped P now memories (q.withLimit n) queryVec policy).memories hvalid
  have hresults : (searchResults P now memories (q.withItems n) queryVec policy elapsed).results =
      (applyBudget P elapsed { maxItems := some (n : ℤ) } n
        (deduped P now memories (q.withLimit n) queryVec policy).memories).1 := by
    rw [searchResults, selection_of_budget (q := q.withItems n) rfl, deduped_withItems]
    rfl
  rw [hresults]
  have heffective : ((({ maxItems := some (n : ℤ) } : RetrievalBudget).maxItems).map Int.toNat).getD 10 = n := rfl
  rw [heffective] at hlaws
  obtain ⟨rest, hrest⟩ := hlaws.front
  have hcount : (applyBudget P elapsed { maxItems := some (n : ℤ) } n
      (deduped P now memories (q.withLimit n) queryVec policy).memories).1.length ≤ n := hlaws.count
  cases htruncated : (applyBudget P elapsed { maxItems := some (n : ℤ) } n
      (deduped P now memories (q.withLimit n) queryVec policy).memories).2.truncated with
  | false =>
    have hall := hlaws.complete htruncated
    simp only [Option.isSome_some, if_true] at hall
    rw [hall] at hcount ⊢
    exact (List.take_of_length_le hcount).symm
  | true =>
    obtain ⟨name, next, rest', hsplit, -, hrefuses⟩ := hlaws.truncated.mp htruncated
    have hfull : n ≤ (applyBudget P elapsed { maxItems := some (n : ℤ) } n
        (deduped P now memories (q.withLimit n) queryVec policy).memories).1.length := by
      cases hrefuses with
      | maxItems hitems hfull =>
        cases hitems
        exact hfull
      | maxLatency hnone => cases hnone
      | maxBytes hnone => cases hnone
    have htake := congrArg (List.take n) hsplit
    rw [List.take_append_of_le_length hfull, List.take_of_length_le hcount] at htake
    exact htake.symm

variable (P now memories q queryVec policy n) in
/-- What the diversity selection of a limit chooses from. -/
def diversityPool : List Memory :=
  (deduped P now memories (q.withLimit n) queryVec policy).memories.take (max (max (n * 10) 100) n)

variable (P now memories q queryVec policy n) in
/-- Where there is a diversity selection that has to choose, it chooses the best-ranked memories. -/
def KeepsRanking : Prop :=
  ∀ v, usableVector queryVec = some v → policy.diversity = true →
    n < (diversityPool P now memories q n queryVec policy).length →
    KeepsOrder P v n (diversityPool P now memories q n queryVec policy)

theorem results_withLimit_iff (hn : 1 ≤ n) :
    (searchResults P now memories (q.withLimit n) queryVec policy elapsed).results =
      (deduped P now memories (q.withLimit n) queryVec policy).memories.take n ↔
    KeepsRanking P now memories q n queryVec policy := by
  have hresults : (searchResults P now memories (q.withLimit n) queryVec policy elapsed).results =
      selection P (q.withLimit n) queryVec policy
        (deduped P now memories (q.withLimit n) queryVec policy).memories := rfl
  have hpool : (diversityPool P now memories q n queryVec policy).take n =
      (deduped P now memories (q.withLimit n) queryVec policy).memories.take n := by
    rw [diversityPool, List.take_take, min_eq_left (le_max_right _ _)]
  have hlength : (diversityPool P now memories q n queryVec policy).length ≤
      (deduped P now memories (q.withLimit n) queryVec policy).memories.length := List.length_take_le' _ _
  rw [hresults, selection]
  split
  · next v hv =>
    obtain ⟨hvector, hdiverse⟩ := Option.filter_eq_some_iff.mp hv
    obtain ⟨hdiversity, -⟩ := Bool.and_eq_true_iff.mp hdiverse
    have hne : v ≠ [] := of_decide_eq_true (Option.filter_eq_some_iff.mp hvector).2
    have honly : KeepsRanking P now memories q n queryVec policy ↔
        (n < (diversityPool P now memories q n queryVec policy).length →
          KeepsOrder P v n (diversityPool P now memories q n queryVec policy)) := by
      refine ⟨fun h => h v hvector hdiversity, fun h w hw _ hlt => ?_⟩
      obtain rfl : v = w := Option.some.inj (hvector.symm.trans hw)
      exact h hlt
    change mmrDedup P (diversityPool P now memories q n queryVec policy) v n = _ ↔ _
    rw [honly, mmrDedup]
    by_cases hfew : (diversityPool P now memories q n queryVec policy).length ≤ n
    · simp only [hfew, decide_true, Bool.true_or, if_true, hpool, true_iff]
      exact fun hlt => absurd hlt (Nat.not_lt.mpr hfew)
    · have hmany : n < (diversityPool P now memories q n queryVec policy).length := Nat.lt_of_not_le hfew
      simp only [hfew, hne, decide_false, Bool.or_self, Bool.false_eq_true, if_false, hmany, true_imp_iff]
      rw [← hpool]
      exact rounds_eq_take_iff hmany.le
  · next hnone =>
    refine ⟨fun _ v hv hdiversity hlt => ?_, fun _ => rfl⟩
    have hone : 1 < (deduped P now memories (q.withLimit n) queryVec policy).memories.length := by omega
    rw [hv, hdiversity, Option.filter_some] at hnone
    simp [hone] at hnone

/-- A budget of items and a limit of as many have the same results exactly when the search is refused, or
    the diversity selection keeps to the ranking. -/
theorem items_as_limit_iff (P : Platform) (now : ℤ) (memories : List Memory) (q : SearchQuery) {n : ℕ}
    (hn : 1 ≤ n) (queryVec : Option (List JsNum)) (policy : RetrievalPolicy) (elapsed : ℕ → JsNum) :
    (searchQ P now memories (q.withItems n) queryVec policy elapsed).map (·.results) =
      (searchQ P now memories (q.withLimit n) queryVec policy elapsed).map (·.results) ↔
    (validWeights P policy → KeepsRanking P now memories q n queryVec policy) := by
  by_cases hweights : validWeights P policy
  · have hitems : searchQ P now memories (q.withItems n) queryVec policy elapsed = .ok _ :=
      searchQ_eq_ok.mpr ⟨⟨validBudget_withItems hn, hweights⟩, rfl⟩
    have hlimit : searchQ P now memories (q.withLimit n) queryVec policy elapsed = .ok _ :=
      searchQ_eq_ok.mpr ⟨⟨fun b hb => (by cases hb), hweights⟩, rfl⟩
    rw [hitems, hlimit]
    simp only [Except.map, Except.ok.injEq, results_withItems hn, hweights, true_imp_iff]
    rw [eq_comm]
    exact results_withLimit_iff hn
  · have hsame : searchQ P now memories (q.withItems n) queryVec policy elapsed =
        searchQ P now memories (q.withLimit n) queryVec policy elapsed := by
      have hvalid : (q.withItems n).budget.elim (.ok ()) assertValidBudget = .ok () :=
        validBudget_withItems (q := q) hn _ rfl
      rw [searchQ_eq, searchQ_eq, hvalid]
      cases hchecked : (if policy.fusionWeights.isSome then
          assertValidFusionWeights (fusionWeights P policy) else .ok ()) with
      | error e => rfl
      | ok u => exact absurd (fun hsome => by rw [← hchecked, if_pos hsome]) hweights
    exact iff_of_true (by rw [hsame]) fun h => absurd h hweights

/-- Without a vector nothing is diversified. -/
theorem items_as_limit_plain :
    (searchQ plainPlatform 1767225600000 twoRules (({} : SearchQuery).withItems 2) none {}
      (fun _ => ofInt 0)).map (·.results) =
    (searchQ plainPlatform 1767225600000 twoRules (({} : SearchQuery).withLimit 2) none {}
      (fun _ => ofInt 0)).map (·.results) :=
  (items_as_limit_iff _ _ _ _ (Nat.succ_pos 1) _ _ _).mpr fun _ v hv => by cases hv

/-- A limit of two leaves a rule and the note, a budget of two items both rules. -/
theorem items_not_as_limit :
    (searchQ plainPlatform 1767225600000 twoRules (({} : SearchQuery).withItems 2)
      (some [ofInt 0, ofInt 1]) {} (fun _ => ofInt 0)).toOption.map (·.results.map (·.id)) =
        some ["a", "b"] ∧
    (searchQ plainPlatform 1767225600000 twoRules (({} : SearchQuery).withLimit 2)
      (some [ofInt 0, ofInt 1]) {} (fun _ => ofInt 0)).toOption.map (·.results.map (·.id)) =
        some ["a", "c"] := by
  have hranking : fullRanking plainPlatform 1767225600000 twoRules (({} : SearchQuery).withLimit 2)
      (some [ofInt 0, ofInt 1]) {} = twoRules :=
    fullRanking_of_sorted rfl (by decide +kernel) (by decide +kernel) (by decide +kernel) (by decide +kernel)
  refine ⟨congrArg some ?_, congrArg some ?_⟩
  · change (applyBudget plainPlatform _ { maxItems := some 2 } _
      (selection _ _ _ _ (deduped _ _ _ _ _ _).memories)).1.map (·.id) = _
    rw [deduped_withItems, deduped, currentRanking, hranking]
    decide +kernel
  · change (selection _ _ _ _ (deduped _ _ _ _ _ _).memories).map (·.id) = _
    rw [deduped, currentRanking, hranking]
    decide +kernel

end Items

end Remembra.Retrieval
