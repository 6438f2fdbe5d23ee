import Remembra.Retrieval.Limit
import Remembra.Retrieval.Standing

/-! What the explanations of a search say of the scores that the memories are sorted by, on a platform
    that computes exactly: the points of an explanation are summed with the raw scores of the two
    searches, which the ranking has only used for the places, so that the sum is the score of the memory
    where neither search has found it and is more where one has. -/

namespace Remembra.Retrieval
open Store (Memory JsNum)
open Sorting (Front)

section Exact
variable {P : Platform} {F : Floats} {x y : JsNum} {a b : ℚ}

theorem add_finite (hF : F.Exact) (a b : ℚ) : F.add (.finite a) (.finite b) = .finite (a + b) :=
  hF.round (a + b)

theorem sub_finite (hF : F.Exact) (a b : ℚ) : F.sub (.finite a) (.finite b) = .finite (a - b) := by
  rw [Floats.sub, opposite, add_finite hF, sub_eq_add_neg]

theorem mul_finite (hF : F.Exact) (a b : ℚ) : F.mul (.finite a) (.finite b) = .finite (a * b) :=
  hF.round (a * b)

theorem div_finite (hF : F.Exact) (a : ℚ) (hb : b ≠ 0) :
    F.div (.finite a) (.finite b) = .finite (a / b) := by
  simp only [Floats.div, hb, ne_eq, not_false_eq_true, if_true]
  exact hF.round (a / b)

theorem isFinite_iff : isFinite x = true ↔ ∃ q, x = .finite q := by
  cases x with
  | finite q => exact iff_of_true rfl ⟨q, rfl⟩
  | nan => simp [isFinite]
  | infinity => simp [isFinite]
  | negInfinity => simp [isFinite]

theorem isFinite_add (hF : F.Exact) (hx : isFinite x = true) (hy : isFinite y = true) :
    isFinite (F.add x y) = true := by
  obtain ⟨a, rfl⟩ := isFinite_iff.mp hx
  obtain ⟨b, rfl⟩ := isFinite_iff.mp hy
  rw [add_finite hF]
  rfl

theorem isFinite_mul (hF : F.Exact) (hx : isFinite x = true) (hy : isFinite y = true) :
    isFinite (F.mul x y) = true := by
  obtain ⟨a, rfl⟩ := isFinite_iff.mp hx
  obtain ⟨b, rfl⟩ := isFinite_iff.mp hy
  rw [mul_finite hF]
  rfl

theorem isFinite_div (hF : F.Exact) (hx : isFinite x = true) (hb : b ≠ 0) :
    isFinite (F.div x (.finite b)) = true := by
  obtain ⟨a, rfl⟩ := isFinite_iff.mp hx
  rw [div_finite hF a hb]
  rfl

/-- What is more than a number stays more when a finite number is added to both. -/
theorem less_add_right (hF : F.Exact) (h : less x y = true) (a : ℚ) (hx : isFinite x = true) :
    less (F.add x (.finite a)) (F.add y (.finite a)) = true := by
  obtain ⟨b, rfl⟩ := isFinite_iff.mp hx
  cases y with
  | finite c =>
    have hbc : b < c := by simpa [less] using h
    rw [add_finite hF, add_finite hF]
    simpa [less] using hbc
  | infinity => simp [Floats.add, hF.round, less]
  | nan => simp [less] at h
  | negInfinity => simp [less] at h

/-- A positive score makes a sum larger. -/
theorem less_add_positive (hF : F.Exact) (a : ℚ) (hy : less (ofInt 0) y = true) :
    less (.finite a) (F.add (.finite a) y) = true := by
  cases y with
  | finite c =>
    have hc : 0 < c := by simpa [less, ofInt] using hy
    rw [add_finite hF]
    simpa [less] using hc
  | infinity => simp [Floats.add, less]
  | nan => simp [less, ofInt] at hy
  | negInfinity => simp [less, ofInt] at hy

/-! ### Scores that are finite -/

/-- The weights are numbers, none of them below zero, and the smoothing of the places is above it. -/
structure FiniteWeights (w : FusionWeights) : Prop where
  finite : ∀ e ∈ w.named, isFinite e.2 = true
  positive : ∃ k : ℚ, w.rrfK = .finite k ∧ 0 < k

theorem finiteWeights_of_valid {w : FusionWeights} (h : assertValidFusionWeights w = .ok ()) :
    FiniteWeights w := by
  rw [assertValidFusionWeights] at h
  split at h
  · cases h
  · next hfind =>
    have hall : ∀ e ∈ w.named, isFinite e.2 = true ∧ less e.2 (ofInt 0) = false := by
      intro e he
      have hnone := List.find?_eq_none.mp hfind e he
      simpa using hnone
    have hmem : ("rrfK", w.rrfK) ∈ w.named := by
      simp [FusionWeights.named]
    have hless : less w.rrfK (ofInt 0) = false := (hall _ hmem).2
    obtain ⟨k, hk⟩ : ∃ k, w.rrfK = .finite k := isFinite_iff.mp (hall _ hmem).1
    refine ⟨fun e he => (hall e he).1, k, hk, ?_⟩
    split_ifs at h with hzero
    have hne : k ≠ 0 := by
      rintro rfl
      exact hzero (by simp [hk, same, ofInt])
    have hnot : ¬ k < 0 := by simpa [hk, less, ofInt] using hless
    exact lt_of_le_of_ne (not_lt.mp hnot) hne.symm

theorem finiteWeights_default (hF : P.floats.Exact) : FiniteWeights (defaultFusionWeights P) := by
  refine ⟨?_, 16 / 10, hF.round _, by norm_num⟩
  intro e he
  simp only [FusionWeights.named, defaultFusionWeights, Floats.literal, hF.round, List.mem_cons,
    List.not_mem_nil, or_false] at he
  rcases he with rfl | rfl | rfl | rfl | rfl | rfl | rfl <;> rfl

theorem finiteWeights_policy (hF : P.floats.Exact) (policy : RetrievalPolicy)
    (h : validWeights P policy) : FiniteWeights (fusionWeights P policy) := by
  cases hweights : policy.fusionWeights with
  | none =>
    rw [fusionWeights, hweights]
    exact finiteWeights_default hF
  | some w => exact finiteWeights_of_valid (h (by rw [hweights]; rfl))

/-- A place in a ranking is worth a number. -/
theorem isFinite_contributions (hF : P.floats.Exact) {listWeight : JsNum} {k : ℚ} (hk : 0 < k)
    (hweight : isFinite listWeight = true) (i : ℕ) (groups : List (List Ranked)) :
    ∀ e ∈ contributions P listWeight (.finite k) i groups, isFinite e.2 = true := by
  induction groups generalizing i with
  | nil => intro e he; cases he
  | cons group rest ih =>
    intro e he
    rcases List.mem_append.mp he with he | he
    · obtain ⟨e, -, rfl⟩ := List.mem_map.mp he
      have htwo : ((2 : ℤ) : ℚ) ≠ 0 := by norm_num
      have hpositive : k + ((i + 1 + (i + group.length) : ℕ) : ℚ) / ((2 : ℤ) : ℚ) ≠ 0 := by
        push_cast
        positivity
      simp only [ofNat, ofInt, div_finite hF _ htwo, add_finite hF]
      exact isFinite_div hF hweight hpositive
    · exact ih _ e he

theorem isFinite_accumulated (hF : P.floats.Exact) {l : List Ranked} {m : OrdMap String JsNum}
    (hl : ∀ e ∈ l, isFinite e.2 = true) (hm : ∀ id, isFinite ((m.get id).getD (ofInt 0)) = true)
    (id : String) : isFinite (((l.foldl (fun fuse e =>
      fuse.set e.1 (P.floats.add ((fuse.get e.1).getD (ofInt 0)) e.2)) m).get id).getD (ofInt 0)) = true := by
  induction l generalizing m with
  | nil => exact hm id
  | cons e l ih =>
    refine ih (fun d hd => hl d (List.mem_cons_of_mem _ hd)) fun k => ?_
    rw [OrdMap.get_set]
    split_ifs
    · exact isFinite_add hF (hm e.1) (hl e List.mem_cons_self)
    · exact hm k

theorem isFinite_singleListRanks (hF : P.floats.Exact) {listWeight : JsNum} {k : ℚ} (hk : 0 < k)
    (hweight : isFinite listWeight = true) (list : List Ranked) (id : String) :
    isFinite (((singleListRanks P listWeight (.finite k) list).get id).getD (ofInt 0)) = true := by
  cases hget : (singleListRanks P listWeight (.finite k) list).get id with
  | none => rfl
  | some v =>
    rcases get_foldl_set hget with hempty | hmem
    · cases hempty
    · exact isFinite_contributions hF hk hweight 0 _ _ hmem

/-- What the rankings are fused to is a number for each id. -/
theorem isFinite_fuseScores (hF : P.floats.Exact) {w : FusionWeights} (hw : FiniteWeights w)
    (kwRank vecRank : List Ranked) (id : String) :
    isFinite (((fuseScores P kwRank vecRank w).get id).getD (ofInt 0)) = true := by
  obtain ⟨k, hk, hpositive⟩ := hw.positive
  have hkeyword : isFinite w.keyword = true := hw.finite ("keyword", w.keyword) (by simp [FusionWeights.named])
  have hsemantic : isFinite w.semantic = true :=
    hw.finite ("semantic", w.semantic) (by simp [FusionWeights.named])
  rw [fuseScores, hk]
  split_ifs
  · exact isFinite_singleListRanks hF hpositive hsemantic vecRank id
  · exact isFinite_singleListRanks hF hpositive hkeyword kwRank id
  · rw [rrfFuse, hk]
    refine isFinite_accumulated hF (fun e he => ?_) (fun _ => rfl) id
    rcases List.mem_append.mp he with he | he
    · exact isFinite_contributions hF hpositive hkeyword 0 _ e he
    · exact isFinite_contributions hF hpositive hsemantic 0 _ e he

theorem isFinite_metadataPoints (hF : P.floats.Exact) (m : Memory) :
    isFinite (metadataPoints P m) = true := by
  have htrust : isFinite (trustPoints m.trust) = true := by
    cases m.trust <;> rfl
  have hpoints : ∀ x, isFinite x = true → isFinite (P.floats.add x (ofInt 50)) = true :=
    fun x hx => isFinite_add hF hx rfl
  have hmanual : isFinite (if m.provenance.sourceType = .manual then
      P.floats.add (ofInt 0) (ofInt 10) else ofInt 0) = true := by
    split_ifs
    · exact isFinite_add hF rfl rfl
    · rfl
  have hboth := isFinite_add hF hmanual htrust
  rw [metadataPoints]
  refine isFinite_add hF ?_ (isFinite_mul hF rfl rfl)
  split_ifs at hboth ⊢
  · exact hpoints _ hboth
  · exact hpoints _ hboth
  · exact hboth
  · exact hboth

theorem isFinite_modifierScore (hF : P.floats.Exact) (hP : P.floats.Ieee) {w : FusionWeights}
    (hw : FiniteWeights w) (m : Memory) (temporal : Temporal) (now : ℤ) :
    isFinite (modifierScore P m temporal now w) = true := by
  have hmetadata : isFinite w.metadata = true :=
    hw.finite ("metadata", w.metadata) (by simp [FusionWeights.named])
  have hconfidence : isFinite w.confidence = true :=
    hw.finite ("confidence", w.confidence) (by simp [FusionWeights.named])
  have hrecency : isFinite w.recency = true := hw.finite ("recency", w.recency) (by simp [FusionWeights.named])
  have hscore : isFinite (recencyScore P m now) = true := by
    obtain ⟨q, hq, -⟩ := within_recencyScore (m := m) hP now
    rw [hq]
    rfl
  have hmultiplier : isFinite (if temporal.latestCount.isSome || temporal.recentCount.isSome then ofInt 2
      else P.floats.literal (1 / 2)) = true := by
    split_ifs
    · rfl
    · rw [Floats.literal, hF.round]
      rfl
  have hfirst := isFinite_add hF (x := ofInt 0) rfl (isFinite_mul hF (isFinite_metadataPoints hF m) hmetadata)
  have hsecond := isFinite_add hF hfirst
    (isFinite_mul hF (isFinite_mul hF (x := .finite m.confidence) (y := ofInt 20) rfl rfl) hconfidence)
  exact isFinite_add hF hsecond (isFinite_mul hF (isFinite_mul hF hscore hmultiplier) hrecency)

end Exact

/-! ### Explanations -/

section Explained
variable (P : Platform) (now : ℤ) (memories : List Memory) (q : SearchQuery)
  (queryVec : Option (List JsNum)) (policy : RetrievalPolicy)

/-- What the rankings of the search are fused to. -/
def fusedRankings : OrdMap String JsNum :=
  let scored := scoredEntries P memories q queryVec policy
  fuseScores P (rankedBy P ScoredEntry.kwScore scored) (rankedBy P ScoredEntry.vecScore scored)
    (fusionWeights P policy)

/-- The points for the fusion, before they are rounded to two decimals for the explanation. -/
def fusionPoints (id : String) : JsNum :=
  P.floats.mul (((fusedRankings P memories q queryVec policy).get id).getD (ofInt 0))
    (fusionWeights P policy).fusionScale

/-- The points for the fusion as an explanation has them. -/
def twoDecimals (x : JsNum) : JsNum := P.floats.div (mathRound (P.floats.mul x (ofInt 100))) (ofInt 100)

/-- The total of an explanation, with the points for the fusion as they are before they are rounded. -/
def unroundedTotal (e : Merged) : JsNum :=
  let points := fusionPoints P memories q queryVec policy e.m.id
  P.floats.add (P.floats.sub (buildExplanation P e).totalScore (twoDecimals P points)) points

/-- The sorted entries whose memories the search answers with. -/
def explained (r : SearchResults) : List Merged :=
  (gated P now memories q queryVec policy).filter fun e => e.m.id ∈ r.results.map (·.id)

/-- The explanations of an answer explain the ranking. -/
structure Explains (r : SearchResults) : Prop where
  /-- They are those of the sorted entries, in their order. -/
  listed : r.explanations =
    some ((explained P now memories q queryVec policy r).map (buildExplanation P))
  /-- Each total is the score that the entry is sorted by, but for the rounding of the fusion. -/
  total : ∀ e ∈ explained P now memories q queryVec policy r,
    unroundedTotal P memories q queryVec policy e = e.final
  /-- The rounding is one of half a hundredth at most. -/
  rounding : ∀ e ∈ explained P now memories q queryVec policy r, ∃ d : ℚ,
    P.floats.sub (twoDecimals P (fusionPoints P memories q queryVec policy e.m.id))
      (fusionPoints P memories q queryVec policy e.m.id) = .finite d ∧ |d| ≤ 1 / 200
  /-- Of two entries, the one that is ranked first has the larger or equal total, but for the rounding. -/
  ordered : (explained P now memories q queryVec policy r).Pairwise fun a b =>
    atMost (unroundedTotal P memories q queryVec policy b)
      (unroundedTotal P memories q queryVec policy a) = true

/-- One of the two searches has found the memory. -/
def ScoredEntry.isHit (e : ScoredEntry) : Bool := less (ofInt 0) e.kwScore || less (ofInt 0) e.vecScore

/-- A total with the score of one of the two searches, if that has found the memory. -/
def addHit (total score : JsNum) : JsNum := if less (ofInt 0) score then P.floats.add total score else total

end Explained

section Totals
variable {P : Platform} {now : ℤ} {memories : List Memory} {q : SearchQuery}
  {queryVec : Option (List JsNum)} {policy : RetrievalPolicy} {elapsed : ℕ → JsNum} {r : SearchResults}
  {d : ScoredEntry} {x y : JsNum} {a : ℚ}

variable (P now q policy) in
/-- The total of an explanation: three sorts of points, the scores of the searches that have found the
    memory, and the points of the standing instructions. -/
theorem totalScore_mergeEntry (fuse : OrdMap String JsNum) (d : ScoredEntry) :
    (buildExplanation P (mergeEntry P now q policy fuse d)).totalScore =
      applyStandingGate P (addHit P (addHit P (P.floats.add (P.floats.add
        (P.floats.add (ofInt 0) (ofNat d.scopeScore))
        (twoDecimals P (P.floats.mul ((fuse.get d.m.id).getD (ofInt 0)) (fusionWeights P policy).fusionScale)))
        (modifierScore P d.m (extractQuery P q.query).2 now (fusionWeights P policy)))
        d.kwScore) d.vecScore) d.m policy.requireRoleTrust := by
  simp only [buildExplanation, mergeEntry, List.map_append, List.foldl_append, applyStandingGate, addHit]
  split_ifs <;> rfl

theorem addHit_of_not (h : less (ofInt 0) y = false) : addHit P x y = x := by
  simp [addHit, h]

/-- What is more than a number stays more with another score. -/
theorem less_addHit (hF : P.floats.Exact) (h : less (.finite a) x = true) (y : JsNum) :
    less (.finite a) (addHit P x y) = true := by
  rw [addHit]
  split_ifs with hy
  · cases x with
    | finite b => exact less_trans h (less_add_positive hF b hy)
    | infinity =>
      cases y with
      | finite c => rfl
      | infinity => rfl
      | nan => simp [less, ofInt] at hy
      | negInfinity => simp [less, ofInt] at hy
    | nan => simp [less] at h
    | negInfinity => simp [less] at h
  · exact h

theorem less_addHit_of_hit (hF : P.floats.Exact) (a : ℚ) (hy : less (ofInt 0) y = true) :
    less (.finite a) (addHit P (.finite a) y) = true := by
  rw [addHit, if_pos hy]
  exact less_add_positive hF a hy

theorem less_addHits (hF : P.floats.Exact) (hhit : d.isHit = true) :
    less (.finite a) (addHit P (addHit P (.finite a) d.kwScore) d.vecScore) = true := by
  cases hkw : less (ofInt 0) d.kwScore with
  | true => exact less_addHit hF (less_addHit_of_hit hF a hkw) _
  | false =>
    have hvec : less (ofInt 0) d.vecScore = true := by
      rw [ScoredEntry.isHit, hkw, Bool.false_or] at hhit
      exact hhit
    rw [addHit_of_not hkw]
    exact less_addHit_of_hit hF a hvec

/-- What a number is rounded to. -/
theorem twoDecimals_finite (hF : P.floats.Exact) (a : ℚ) :
    twoDecimals P (.finite a) = .finite (⌊a * 100 + 1 / 2⌋ / 100) := by
  have hhundred : ((100 : ℤ) : ℚ) ≠ 0 := by norm_num
  rw [twoDecimals, ofInt, mul_finite hF, mathRound, ofInt, div_finite hF _ hhundred]
  norm_num

/-- Rounding to two decimals moves a number by half a hundredth at most. -/
theorem abs_twoDecimals_sub_le (a : ℚ) : |(⌊a * 100 + 1 / 2⌋ / 100 - a : ℚ)| ≤ 1 / 200 := by
  have hlow := Int.floor_le (a * 100 + 1 / 2)
  have hhigh := Int.lt_floor_add_one (a * 100 + 1 / 2)
  rw [abs_le]
  constructor
  · linarith
  · linarith

/-- The points of the standing instructions, if the memory is one. -/
def gatePoints (m : Memory) (requireTrust : Bool) : ℚ :=
  if isStandingInstruction m requireTrust then 1000 else 0

theorem applyStandingGate_finite (hF : P.floats.Exact) (a : ℚ) (m : Memory) (requireTrust : Bool) :
    applyStandingGate P (.finite a) m requireTrust = .finite (a + gatePoints m requireTrust) := by
  rw [applyStandingGate, gatePoints]
  split_ifs
  · rw [ofInt, add_finite hF]
    norm_num
  · rw [add_zero]

theorem less_applyStandingGate (hF : P.floats.Exact) (h : less (.finite a) x = true) (m : Memory)
    (requireTrust : Bool) :
    less (.finite (a + gatePoints m requireTrust)) (applyStandingGate P x m requireTrust) = true := by
  rw [← applyStandingGate_finite hF, applyStandingGate, applyStandingGate]
  split_ifs
  · exact less_add_right hF h 1000 rfl
  · exact h

variable (now memories q queryVec) in
/-- The parts of an entry's score: the points for the fusion and the other ones, all of them numbers. -/
theorem exists_points (hF : P.floats.Exact) (hP : P.floats.Ieee)
    (hw : FiniteWeights (fusionWeights P policy)) (d : ScoredEntry) : ∃ points mod : ℚ,
      fusionPoints P memories q queryVec policy d.m.id = .finite points ∧
      modifierScore P d.m (extractQuery P q.query).2 now (fusionWeights P policy) = .finite mod := by
  have hscale : isFinite (fusionWeights P policy).fusionScale = true :=
    hw.finite ("fusionScale", (fusionWeights P policy).fusionScale) (by simp [FusionWeights.named])
  obtain ⟨points, hpoints⟩ := isFinite_iff.mp (isFinite_mul hF
    (isFinite_fuseScores hF hw (rankedBy P ScoredEntry.kwScore (scoredEntries P memories q queryVec policy))
      (rankedBy P ScoredEntry.vecScore (scoredEntries P memories q queryVec policy)) d.m.id) hscale)
  obtain ⟨mod, hmod⟩ := isFinite_iff.mp
    (isFinite_modifierScore hF hP hw d.m (extractQuery P q.query).2 now)
  exact ⟨points, mod, hpoints, hmod⟩

variable (now memories q queryVec) in
/-- The total of an entry that neither search has found is its score; where one has, it is more. -/
theorem unroundedTotal_mergeEntry (hF : P.floats.Exact) (hP : P.floats.Ieee)
    (hw : FiniteWeights (fusionWeights P policy)) (d : ScoredEntry) :
    let e := mergeEntry P now q policy (fusedRankings P memories q queryVec policy) d
    (d.isHit = false → unroundedTotal P memories q queryVec policy e = e.final) ∧
      (d.isHit = true → less e.final (unroundedTotal P memories q queryVec policy e) = true) := by
  obtain ⟨points, mod, hpoints, hmod⟩ :=
    exists_points now memories q queryVec hF hP hw d
  have hfused : P.floats.mul (((fusedRankings P memories q queryVec policy).get d.m.id).getD (ofInt 0))
      (fusionWeights P policy).fusionScale = .finite points := hpoints
  have hfinal : (mergeEntry P now q policy (fusedRankings P memories q queryVec policy) d).final =
      .finite (points + mod + d.scopeScore + gatePoints d.m policy.requireRoleTrust) := by
    rw [mergeEntry, hfused, hmod, add_finite hF, ofNat, add_finite hF, applyStandingGate_finite hF]
  have htotal := totalScore_mergeEntry P now q policy (fusedRankings P memories q queryVec policy) d
  rw [hfused, hmod, twoDecimals_finite hF, ofNat, ofInt, add_finite hF, add_finite hF,
    add_finite hF] at htotal
  have hid : (mergeEntry P now q policy (fusedRankings P memories q queryVec policy) d).m.id = d.m.id := rfl
  simp only [unroundedTotal, hid, hpoints, hfinal, twoDecimals_finite hF]
  constructor
  · intro hhit
    obtain ⟨hkw, hvec⟩ := Bool.or_eq_false_iff.mp hhit
    rw [htotal, addHit_of_not hkw, addHit_of_not hvec, applyStandingGate_finite hF, sub_finite hF,
      add_finite hF]
    congr 1
    push_cast
    ring
  · intro hhit
    have hmore := less_applyStandingGate hF
      (less_addHits (a := ((0 : ℤ) : ℚ) + d.scopeScore + ⌊points * 100 + 1 / 2⌋ / 100 + mod) hF hhit) d.m
      policy.requireRoleTrust
    rw [← htotal] at hmore
    have hless := less_add_right hF
      (less_add_right hF hmore (-(⌊points * 100 + 1 / 2⌋ / 100)) rfl) points (isFinite_add hF rfl rfl)
    rw [add_finite hF, add_finite hF] at hless
    have hsum : ((0 : ℤ) : ℚ) + d.scopeScore + ⌊points * 100 + 1 / 2⌋ / 100 + mod +
        gatePoints d.m policy.requireRoleTrust + -(⌊points * 100 + 1 / 2⌋ / 100) + points =
        points + mod + d.scopeScore + gatePoints d.m policy.requireRoleTrust := by
      push_cast
      ring
    rw [hsum] at hless
    exact hless

/-! ### The order -/

theorem order_finite (hF : P.floats.Exact) (a b : ℚ) :
    P.floats.order (.finite a) (.finite b) = if a < b then .lt else if b < a then .gt else .eq := by
  rw [Floats.order, sub_finite hF]
  simp only [less, sub_neg, sub_pos, decide_eq_true_eq]

theorem mem_gated {e : Merged} : e ∈ gated P now memories q queryVec policy ↔
    ∃ d ∈ scoredEntries P memories q queryVec policy,
      mergeEntry P now q policy (fusedRankings P memories q queryVec policy) d = e := by
  rw [gated, List.mem_mergeSort]
  exact List.mem_map

/-- The score that an entry is sorted by is a number. -/
theorem exists_final (hF : P.floats.Exact) (hP : P.floats.Ieee)
    (hw : FiniteWeights (fusionWeights P policy)) {e : Merged}
    (he : e ∈ gated P now memories q queryVec policy) : ∃ a : ℚ, e.final = .finite a := by
  obtain ⟨d, -, rfl⟩ := mem_gated.mp he
  obtain ⟨points, mod, hpoints, hmod⟩ :=
    exists_points now memories q queryVec hF hP hw d
  have hfused : P.floats.mul (((fusedRankings P memories q queryVec policy).get d.m.id).getD (ofInt 0))
      (fusionWeights P policy).fusionScale = .finite points := hpoints
  refine ⟨points + mod + d.scopeScore + gatePoints d.m policy.requireRoleTrust, ?_⟩
  rw [mergeEntry, hfused, hmod, add_finite hF, ofNat, add_finite hF, applyStandingGate_finite hF]

/-- No entry has a larger score than one that is sorted before it. -/
theorem gated_pairwise (hF : P.floats.Exact) (hP : P.floats.Ieee)
    (hw : FiniteWeights (fusionWeights P policy)) :
    (gated P now memories q queryVec policy).Pairwise fun a b => atMost b.final a.final = true := by
  rw [List.pairwise_iff_forall_sublist]
  intro a b hsub
  have hmem : ∀ e ∈ [a, b], e ∈ gated P now memories q queryVec policy := fun e he => hsub.subset he
  obtain ⟨x, hx⟩ := exists_final hF hP hw (hmem a (by simp))
  obtain ⟨y, hy⟩ := exists_final hF hP hw (hmem b (by simp))
  -- the entries with at least the score of `b` stand in front
  have hfront : Front (fun e : Merged => ∃ z, e.final = .finite z ∧ y ≤ z)
      (gated P now memories q queryVec policy) := by
    refine Sorting.front_mergeSort fun c hc d hd hpc hpd => ?_
    obtain ⟨z, hz, hyz⟩ := hpc
    obtain ⟨w, hw'⟩ := exists_final hF hP hw (List.mem_mergeSort.mpr hd)
    have hlt : w < z := by
      by_contra hnot
      exact hpd ⟨w, hw', hyz.trans (not_lt.mp hnot)⟩
    have hnot : ¬ z < w := not_lt.mpr hlt.le
    constructor
    · rw [compareMerged, hz, hw', order_finite hF, if_pos hlt]
      rfl
    · rw [compareMerged, hz, hw', order_finite hF, if_neg hnot, if_pos hlt]
      rfl
  obtain ⟨z, hz, hyz⟩ := List.pairwise_iff_forall_sublist.mp hfront hsub ⟨y, hy, le_refl y⟩
  rw [hy, hz]
  rcases hyz.lt_or_eq with hlt | rfl
  · simp [atMost, less, hlt]
  · simp [atMost]

theorem not_explains_of_hit (hF : P.floats.Exact) (hP : P.floats.Ieee)
    (hw : FiniteWeights (fusionWeights P policy)) (hd : d ∈ scoredEntries P memories q queryVec policy)
    (hin : d.m.id ∈ r.results.map (·.id)) (hhit : d.isHit = true) :
    ¬ Explains P now memories q queryVec policy r := by
  intro hexplains
  have hmore := (unroundedTotal_mergeEntry now memories q queryVec hF hP hw d).2 hhit
  rw [hexplains.total _ (List.mem_filter.mpr ⟨mem_gated.mpr ⟨d, hd, rfl⟩, decide_eq_true hin⟩),
    less_irrefl] at hmore
  cases hmore

/-- The explanations explain the ranking exactly if neither search has found any of the memories that they
    are about. -/
theorem explains_iff (hF : P.floats.Exact) (hP : P.floats.Ieee)
    (h : searchQ P now memories q queryVec policy elapsed = .ok r) (hexplain : q.explain = true) :
    Explains P now memories q queryVec policy r ↔
      ∀ d ∈ scoredEntries P memories q queryVec policy, d.m.id ∈ r.results.map (·.id) →
        d.isHit = false := by
  obtain ⟨⟨-, hvalid⟩, hr⟩ := searchQ_eq_ok.mp h
  have hw := finiteWeights_policy hF _ hvalid
  constructor
  · intro hexplains d hd hin
    by_contra hhit
    exact not_explains_of_hit hF hP hw hd hin (Bool.not_eq_false _ ▸ hhit) hexplains
  · intro hnone
    have htotal : ∀ e ∈ explained P now memories q queryVec policy r,
        unroundedTotal P memories q queryVec policy e = e.final := by
      intro e he
      obtain ⟨hgated, hin⟩ := List.mem_filter.mp he
      obtain ⟨d, hd, rfl⟩ := mem_gated.mp hgated
      exact (unroundedTotal_mergeEntry _ _ _ _ hF hP hw d).1 (hnone d hd (of_decide_eq_true hin))
    refine ⟨?_, htotal, fun e he => ?_, ?_⟩
    · rw [hr]
      simp only [searchResults, hexplain, if_true]
      rfl
    · obtain ⟨d, -, rfl⟩ := mem_gated.mp (List.mem_of_mem_filter he)
      obtain ⟨points, -, hpoints, -⟩ :=
        exists_points now memories q queryVec hF hP hw d
      refine ⟨_, ?_, abs_twoDecimals_sub_le points⟩
      have hid : (mergeEntry P now q policy (fusedRankings P memories q queryVec policy) d).m.id = d.m.id := rfl
      rw [hid, hpoints, twoDecimals_finite hF, sub_finite hF]
    · have hsorted : (explained P now memories q queryVec policy r).Pairwise
          fun a b => atMost b.final a.final = true :=
        (gated_pairwise hF hP hw).sublist List.filter_sublist
      refine hsorted.imp_of_mem fun {a b} ha hb hab => ?_
      rw [htotal a ha, htotal b hb]
      exact hab

end Totals

theorem plainPlatform_exact : plainPlatform.floats.Exact := ⟨fun _ => rfl⟩

/-- Without terms nothing is found. -/
theorem explains_listing : ∃ r,
    searchQ plainPlatform 1767225600000 [plainMemory "a" "The port is 80." "global"] { explain := true }
      none {} (fun _ => ofInt 0) = .ok r ∧
    Explains plainPlatform 1767225600000 [plainMemory "a" "The port is 80." "global"] { explain := true }
      none {} r := by
  refine ⟨_, rfl, (explains_iff plainPlatform_exact plainPlatform_ieee rfl rfl).mpr fun d hd _ => ?_⟩
  have hnone : ∀ d ∈ scoredEntries plainPlatform [plainMemory "a" "The port is 80." "global"]
      { explain := true } none {}, d.isHit = false := by
    decide +kernel
  exact hnone d hd

/-- The score of a word that the memory has is a part of the total, and not of the score. -/
theorem word_not_explained :
    ¬ ∀ (P : Platform) (now : ℤ) (memories : List Memory) (q : SearchQuery)
      (queryVec : Option (List JsNum)) (policy : RetrievalPolicy) (elapsed : ℕ → JsNum) (r : SearchResults),
      P.floats.Exact → P.floats.Ieee → searchQ P now memories q queryVec policy elapsed = .ok r →
      q.explain = true → Explains P now memories q queryVec policy r := by
  intro hall
  have hscored : ∃ d ∈ scoredEntries plainPlatform [plainMemory "a" "The port is 80." "global"]
      { query := some "port", explain := true } none {},
      scoredEntries plainPlatform [plainMemory "a" "The port is 80." "global"]
        { query := some "port", explain := true } none {} = [d] ∧
      d.m = plainMemory "a" "The port is 80." "global" ∧ d.isHit = true :=
    ⟨_, List.mem_cons_self, rfl, rfl, by decide +kernel⟩
  obtain ⟨d, hd, hsingle, hm, hhit⟩ := hscored
  have hranking : fullRanking plainPlatform 1767225600000 [plainMemory "a" "The port is 80." "global"]
      { query := some "port", explain := true } none {} = [plainMemory "a" "The port is 80." "global"] := by
    rw [fullRanking_default, gated, hsingle, List.map_singleton, List.mergeSort_singleton, ← hm]
    rfl
  refine not_explains_of_hit plainPlatform_exact plainPlatform_ieee
    (finiteWeights_policy plainPlatform_exact {} (fun h => by cases h)) hd ?_ hhit
    (hall plainPlatform 1767225600000 _ _ none {} (fun _ => ofInt 0) _ plainPlatform_exact
      plainPlatform_ieee rfl rfl)
  rw [hm, deduped, currentRanking, hranking]
  decide +kernel

end Remembra.Retrieval
