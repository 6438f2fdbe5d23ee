import Mathlib.Data.List.SplitBy
import Remembra.Lib.Sorting
import Remembra.Retrieval.Search

/-! The ranking before anything is suppressed, with the default weights: the scores of memories as the
    schemas let them be are so small that the points of the standing instructions put these in front. -/

namespace Remembra.Retrieval
open Store (Memory JsNum)
open Sorting (Front)

/-- A pool of memories as the schemas let them be, each with an id of its own. -/
structure WellFormed (memories : List Memory) : Prop where
  ids : (memories.map (·.id)).Nodup
  importance : ∀ m ∈ memories, 1 ≤ m.importance ∧ m.importance ≤ 5
  confidence : ∀ m ∈ memories, 0 ≤ m.confidence ∧ m.confidence ≤ 1

section Bounds
variable {P : Platform} {F : Floats} {x y : JsNum} {a b : ℤ} {m : Memory}

theorem within_literal (hF : F.Ieee) {q : ℚ} (ha : |a| ≤ 2 ^ 53) (hb : |b| ≤ 2 ^ 53) (hlow : a ≤ q)
    (hhigh : q ≤ b) : Within a b (F.literal q) :=
  within_round hF ha hb hlow hhigh

/-- A factor of one changes no bounds. -/
theorem Within.mul_one (hF : F.Ieee) (hx : Within a b x) (ha : |a| ≤ 2 ^ 53) (hb : |b| ≤ 2 ^ 53) :
    Within a b (F.mul x (ofInt 1)) := by
  obtain ⟨q, rfl, haq, hqb⟩ := hx
  refine within_round hF ha hb ?_ ?_
  · push_cast
    linarith
  · push_cast
    linarith

/-- At least one, and perhaps too large to be a number. -/
def AtLeastOne (x : JsNum) : Prop := atMost (ofInt 1) x = true

theorem atLeastOne_cases (h : AtLeastOne x) : (∃ q : ℚ, x = .finite q ∧ 1 ≤ q) ∨ x = .infinity := by
  cases x with
  | finite q =>
    refine .inl ⟨q, rfl, ?_⟩
    simp only [AtLeastOne, atMost, ofInt, less, Bool.or_eq_true, Bool.and_eq_true, decide_eq_true_eq,
      JsNum.finite.injEq] at h
    rcases h with h | ⟨h, -⟩
    · push_cast at h
      exact h.le
    · push_cast at h
      exact h.le
  | nan => simp [AtLeastOne, atMost, ofInt, less] at h
  | infinity => exact .inr rfl
  | negInfinity => simp [AtLeastOne, atMost, ofInt, less] at h

theorem atLeastOne_round (hF : F.Ieee) {q : ℚ} (hq : 1 ≤ q) : AtLeastOne (F.round q) := by
  have hone : F.round ((1 : ℤ) : ℚ) = ofInt 1 := hF.integers 1 (by norm_num)
  rw [AtLeastOne, ← hone]
  exact hF.mono _ _ (by exact_mod_cast hq)

theorem atLeastOne_add (hF : F.Ieee) (hx : Within 1 b x) (hy : AtLeastOne y) :
    AtLeastOne (F.add x y) := by
  obtain ⟨p, rfl, hp, -⟩ := hx
  have hp' : (1 : ℚ) ≤ p := by exact_mod_cast hp
  rcases atLeastOne_cases hy with ⟨q, rfl, hq⟩ | rfl
  · exact atLeastOne_round hF (by linarith)
  · rfl

/-- One divided by something that is at least one. -/
theorem within_one_div (hF : F.Ieee) (hy : AtLeastOne y) : Within 0 1 (F.div (ofInt 1) y) := by
  rcases atLeastOne_cases hy with ⟨q, rfl, hq⟩ | rfl
  · have hne : q ≠ 0 := by linarith
    simp only [Floats.div, ofInt, ne_eq, hne, not_false_eq_true, if_true]
    refine within_round hF (by norm_num) (by norm_num) ?_ ?_
    · push_cast
      positivity
    · push_cast
      rw [div_le_one (by linarith)]
      exact hq
  · exact ⟨0, rfl, by norm_num, by norm_num⟩

/-! ### Points -/

theorem within_trustPoints (trust : Store.TrustLevel) : Within (-8) 8 (trustPoints trust) := by
  cases trust with
  | system => exact (within_ofInt 8).mono (by norm_num) (by norm_num)
  | verified => exact (within_ofInt 6).mono (by norm_num) (by norm_num)
  | trusted => exact (within_ofInt 2).mono (by norm_num) (by norm_num)
  | unverified => exact (within_ofInt (-8)).mono (by norm_num) (by norm_num)

/-- Points that are added on a condition. -/
theorem Within.addIf (hF : F.Ieee) {c : Prop} [Decidable c] (hx : Within a b x) {k : ℤ} (hk : 0 ≤ k)
    (hlow : |a + k| ≤ 2 ^ 53) (hhigh : |b + k| ≤ 2 ^ 53) :
    Within a (b + k) (if c then F.add x (ofInt k) else x) := by
  split_ifs
  · exact (hx.add hF (within_ofInt k) hlow hhigh).mono (by linarith) (le_refl _)
  · exact hx.mono (le_refl _) (by linarith)

theorem within_metadataPoints (hP : P.floats.Ieee) (hm : 1 ≤ m.importance ∧ m.importance ≤ 5) :
    Within (-4) 88 (metadataPoints P m) := by
  have hmanual : Within 0 10 (if m.provenance.sourceType = .manual
      then P.floats.add (ofInt 0) (ofInt 10) else ofInt 0) :=
    (within_ofInt 0).addIf hP (by norm_num) (by norm_num) (by norm_num)
  have htrust := hmanual.add hP (within_trustPoints m.trust) (by norm_num) (by norm_num)
  have hpinned := htrust.addIf hP (c := m.retention = some .pinned) (k := 50) (by norm_num)
    (by norm_num) (by norm_num)
  have himportance : Within 1 5 (ofInt m.importance) := (within_ofInt m.importance).mono hm.1 hm.2
  have htimes := himportance.mul hP (within_ofInt 4) (by norm_num) (by norm_num) (by norm_num)
    (by norm_num)
  exact (hpinned.add hP htimes (by norm_num) (by norm_num)).mono (by norm_num) (by norm_num)

theorem atMost_round_zero (hF : F.Ieee) {q : ℚ} (hq : q ≤ 0) : atMost (F.round q) (ofInt 0) = true := by
  have hzero : F.round ((0 : ℤ) : ℚ) = ofInt 0 := hF.integers 0 (by norm_num)
  rw [← hzero]
  exact hF.mono _ _ (by exact_mod_cast hq)

theorem larger_zero (q : ℚ) : ∃ r : ℚ, larger (ofInt 0) (.finite q) = .finite r ∧ 0 ≤ r := by
  by_cases hq : 0 < q
  · refine ⟨q, ?_, hq.le⟩
    simp [larger, ofInt, less, hq]
  · refine ⟨0, ?_, le_refl 0⟩
    simp [larger, ofInt, less, hq]

theorem within_recencyScore (hP : P.floats.Ieee) (now : ℤ) : Within 0 20 (recencyScore P m now) := by
  simp only [recencyScore]
  split_ifs with hfinite
  · exact (within_ofInt 0).mono (by norm_num) (by norm_num)
  · cases hage : P.floats.div (P.floats.sub (ofInt now)
        (((P.dateParse m.updatedAt).map ofInt).getD .nan)) (ofInt 86400000) with
    | finite age =>
      -- the exponent is a rounded number that is not positive
      have hexponent : atMost (P.floats.div (opposite (larger (ofInt 0) (.finite age))) (ofInt 30))
          (ofInt 0) = true := by
        obtain ⟨q, hq, hpositive⟩ := larger_zero age
        rw [hq]
        have hdiv : -q / ((30 : ℤ) : ℚ) ≤ 0 := by
          push_cast
          linarith
        simpa [opposite, Floats.div, ofInt] using atMost_round_zero hP hdiv
      obtain ⟨r, hr, hlow, hhigh⟩ := hP.exp2 _ hexponent
      have hpower : Within 0 1 (P.floats.exp2
          (P.floats.div (opposite (larger (ofInt 0) (.finite age))) (ofInt 30))) :=
        ⟨r, hr, by exact_mod_cast hlow, by exact_mod_cast hhigh⟩
      have htwenty : Within 0 20 (ofInt 20) := (within_ofInt 20).mono (by norm_num) (le_refl _)
      exact (htwenty.mul hP hpower (le_refl 0) (le_refl 0) (by norm_num) (by norm_num)).mono
        (by norm_num) (by norm_num)
    | nan => simp [hage, isFinite] at hfinite
    | infinity => simp [hage, isFinite] at hfinite
    | negInfinity => simp [hage, isFinite] at hfinite

theorem within_modifierScore (hP : P.floats.Ieee) (hm : 1 ≤ m.importance ∧ m.importance ≤ 5)
    (hc : 0 ≤ m.confidence ∧ m.confidence ≤ 1) (temporal : Temporal) (now : ℤ) :
    Within (-4) 148 (modifierScore P m temporal now (defaultFusionWeights P)) := by
  have hmetadata := (within_metadataPoints hP hm).mul_one hP (by norm_num) (by norm_num)
  have hfirst := (within_ofInt 0).add hP hmetadata (by norm_num) (by norm_num)
  have hconfidence : Within 0 1 (.finite m.confidence) :=
    ⟨m.confidence, rfl, by exact_mod_cast hc.1, by exact_mod_cast hc.2⟩
  have htwenty := (hconfidence.mul hP ((within_ofInt 20).mono (by norm_num) (le_refl _))
    (by norm_num) (le_refl 0) (by norm_num) (by norm_num)).mul_one hP (by norm_num) (by norm_num)
  have hsecond := hfirst.add hP htwenty (by norm_num) (by norm_num)
  have hmultiplier : Within 0 2 (if temporal.latestCount.isSome || temporal.recentCount.isSome
      then ofInt 2 else P.floats.literal (1 / 2)) := by
    split_ifs
    · exact (within_ofInt 2).mono (by norm_num) (le_refl _)
    · exact (within_literal hP (a := 0) (b := 1) (by norm_num) (by norm_num) (by norm_num)
        (by norm_num)).mono (le_refl _) (by norm_num)
  have hrecency := ((within_recencyScore (m := m) hP now).mul hP hmultiplier (le_refl 0) (le_refl 0)
    (by norm_num) (by norm_num)).mul_one hP (by norm_num) (by norm_num)
  exact (hsecond.add hP hrecency (by norm_num) (by norm_num)).mono (by norm_num) (by norm_num)

/-! ### Fusion -/

theorem map_fst_contributions (listWeight rrfK : JsNum) (i : ℕ) (groups : List (List Ranked)) :
    (contributions P listWeight rrfK i groups).map Prod.fst = groups.flatten.map Prod.fst := by
  induction groups generalizing i with
  | nil => rfl
  | cons group rest ih =>
    rw [contributions, List.map_append, ih, List.flatten_cons, List.map_append, List.map_map]
    rfl

theorem map_fst_listContributions (listWeight rrfK : JsNum) (list : List Ranked) :
    (listContributions P listWeight rrfK list).map Prod.fst = list.map Prod.fst := by
  rw [listContributions, map_fst_contributions, List.flatten_splitBy]

/-- With a weight of one, a place in a ranking is worth one point at most. -/
theorem within_contributions (hP : P.floats.Ieee) (hx : Within 1 b x) {groups : List (List Ranked)}
    (hgroups : ∀ group ∈ groups, group ≠ []) (i : ℕ) :
    ∀ e ∈ contributions P (ofInt 1) x i groups, Within 0 1 e.2 := by
  induction groups generalizing i with
  | nil => intro e he; cases he
  | cons group rest ih =>
    intro e he
    rcases List.mem_append.mp he with he | he
    · obtain ⟨e, -, rfl⟩ := List.mem_map.mp he
      have hlength : 1 ≤ group.length :=
        List.length_pos_of_ne_nil (hgroups group List.mem_cons_self)
      refine within_one_div hP (atLeastOne_add hP hx ?_)
      have htwo : (2 : ℚ) ≤ ((i + 1 + (i + group.length) : ℕ) : ℚ) := by
        exact_mod_cast (by omega : 2 ≤ i + 1 + (i + group.length))
      have havg : (1 : ℚ) ≤ ((i + 1 + (i + group.length) : ℕ) : ℚ) / ((2 : ℤ) : ℚ) := by
        push_cast at htwo ⊢
        linarith
      exact atLeastOne_round hP havg
    · exact ih (fun g hg => hgroups g (List.mem_cons_of_mem _ hg)) _ e he

theorem within_listContributions (hP : P.floats.Ieee) (hx : Within 1 b x) (list : List Ranked) :
    ∀ e ∈ listContributions P (ofInt 1) x list, Within 0 1 e.2 :=
  within_contributions hP hx (fun _ h => List.ne_nil_of_mem_splitBy h) 0

theorem get_foldl_set {l : List Ranked} {m : OrdMap String JsNum} {id : String} {v : JsNum}
    (h : (l.foldl (fun out e => out.set e.1 e.2) m).get id = some v) :
    m.get id = some v ∨ (id, v) ∈ l := by
  induction l generalizing m with
  | nil => exact .inl h
  | cons e l ih =>
    rcases ih h with hset | hmem
    · rw [OrdMap.get_set] at hset
      split_ifs at hset with hid
      · obtain rfl := Option.some.inj hset
        exact .inr (hid ▸ List.mem_cons_self)
      · exact .inl hset
    · exact .inr (List.mem_cons_of_mem _ hmem)

theorem within_singleListRanks (hP : P.floats.Ieee) (hx : Within 1 b x) (list : List Ranked)
    (id : String) :
    Within 0 1 (((singleListRanks P (ofInt 1) x list).get id).getD (ofInt 0)) := by
  cases hget : (singleListRanks P (ofInt 1) x list).get id with
  | none => exact (within_ofInt 0).mono (le_refl _) (by norm_num)
  | some v =>
    rcases get_foldl_set hget with hempty | hmem
    · cases hempty
    · exact within_listContributions hP hx list _ hmem

/-- A ranking adds a point at most for each id. -/
theorem within_accumulated (hP : P.floats.Ieee) {l : List Ranked} {m : OrdMap String JsNum} {n : ℤ}
    (hn : 0 ≤ n ∧ n ≤ 1) (hnodup : (l.map Prod.fst).Nodup) (hl : ∀ e ∈ l, Within 0 1 e.2)
    (hin : ∀ id ∈ l.map Prod.fst, Within 0 n ((m.get id).getD (ofInt 0)))
    (hall : ∀ id, Within 0 (n + 1) ((m.get id).getD (ofInt 0))) (id : String) :
    Within 0 (n + 1) (((l.foldl (fun fuse e =>
      fuse.set e.1 (P.floats.add ((fuse.get e.1).getD (ofInt 0)) e.2)) m).get id).getD (ofInt 0)) := by
  induction l generalizing m with
  | nil => exact hall id
  | cons e l ih =>
    rw [List.map_cons, List.nodup_cons] at hnodup
    have hsum : Within 0 (n + 1) (P.floats.add ((m.get e.1).getD (ofInt 0)) e.2) := by
      have hadd := (hin e.1 (by simp)).add hP (hl e List.mem_cons_self) (by norm_num)
        (abs_le.mpr ⟨by linarith, by linarith⟩)
      exact hadd.mono (by norm_num) (le_refl _)
    refine ih hnodup.2 (fun d hd => hl d (List.mem_cons_of_mem _ hd)) (fun k hk => ?_) (fun k => ?_)
    · have hne : k ≠ e.1 := fun heq => hnodup.1 (heq ▸ hk)
      rw [OrdMap.get_set_ne _ hne]
      exact hin k (List.mem_cons_of_mem _ hk)
    · rw [OrdMap.get_set]
      split_ifs
      · exact hsum
      · exact hall k

theorem within_rrfFuse (hP : P.floats.Ieee) (kwRank vecRank : List Ranked)
    (hkw : (kwRank.map Prod.fst).Nodup) (hvec : (vecRank.map Prod.fst).Nodup) (id : String) :
    Within 0 2 (((rrfFuse P kwRank vecRank (defaultFusionWeights P)).get id).getD (ofInt 0)) := by
  have hrrfK : Within 1 2 (P.floats.literal (16 / 10)) :=
    within_literal hP (by norm_num) (by norm_num) (by norm_num) (by norm_num)
  have hzero (k : String) : Within 0 0 (((OrdMap.empty : OrdMap String JsNum).get k).getD (ofInt 0)) :=
    within_ofInt 0
  rw [rrfFuse, List.foldl_append]
  have hfirst (k : String) := within_accumulated hP (n := 0) (by norm_num)
    (by rw [map_fst_listContributions]; exact hkw) (within_listContributions hP hrrfK kwRank)
    (fun k _ => hzero k) (fun k => (hzero k).mono (le_refl _) (by norm_num)) k
  exact within_accumulated hP (n := 1) (by norm_num) (by rw [map_fst_listContributions]; exact hvec)
    (within_listContributions hP hrrfK vecRank) (fun k _ => hfirst k)
    (fun k => (hfirst k).mono (le_refl _) (by norm_num)) id

theorem within_fuseScores (hP : P.floats.Ieee) (kwRank vecRank : List Ranked)
    (hkw : (kwRank.map Prod.fst).Nodup) (hvec : (vecRank.map Prod.fst).Nodup) (id : String) :
    Within 0 2 (((fuseScores P kwRank vecRank (defaultFusionWeights P)).get id).getD (ofInt 0)) := by
  have hrrfK : Within 1 2 (P.floats.literal (16 / 10)) :=
    within_literal hP (by norm_num) (by norm_num) (by norm_num) (by norm_num)
  rw [fuseScores]
  split_ifs
  · exact (within_singleListRanks hP hrrfK vecRank id).mono (le_refl _) (by norm_num)
  · exact (within_singleListRanks hP hrrfK kwRank id).mono (le_refl _) (by norm_num)
  · exact within_rrfFuse hP kwRank vecRank hkw hvec id

end Bounds

/-! ### The scores of a pool -/

section Scored
variable {P : Platform} {now : ℤ} {memories : List Memory} {q : SearchQuery}
  {queryVec : Option (List JsNum)} {policy : RetrievalPolicy} {e : ScoredEntry}

theorem seeded_sublist (scored : List ScoredEntry) : (seeded q scored).Sublist scored := by
  rw [seeded]
  split_ifs
  · exact List.filter_sublist
  · exact List.Sublist.refl _

theorem map_scoredEntries_sublist :
    ((scoredEntries P memories q queryVec policy).map (·.m)).Sublist memories := by
  refine ((seeded_sublist _).map (·.m)).trans ?_
  have hmap (stats : TermStatistics) (terms : List String) :
      ((memories.filter (passesGates P q queryVec policy)).map
        (scoreEntry P q queryVec stats terms)).map (·.m) =
      memories.filter (passesGates P q queryVec policy) := by
    rw [List.map_map]
    exact List.map_id _
  rw [hmap]
  exact List.filter_sublist

theorem mem_of_mem_scoredEntries (he : e ∈ scoredEntries P memories q queryVec policy) :
    e.m ∈ memories :=
  map_scoredEntries_sublist.subset (List.mem_map_of_mem he)

theorem scopeScore_le (he : e ∈ scoredEntries P memories q queryVec policy) : e.scopeScore ≤ 150 := by
  have hscored := (seeded_sublist _).subset he
  obtain ⟨m, -, rfl⟩ := List.mem_map.mp hscored
  simp only [scoreEntry, applyScopeFilter]
  split_ifs <;> omega

/-- A ranking has the ids of the pool, each once. -/
theorem nodup_rankedBy (h : (memories.map (·.id)).Nodup) (score : ScoredEntry → JsNum) :
    ((rankedBy P score (scoredEntries P memories q queryVec policy)).map Prod.fst).Nodup := by
  have hperm := (List.mergeSort_perm (((scoredEntries P memories q queryVec policy).filter
    fun e => less (ofInt 0) (score e)).map fun e => (e.m.id, score e))
    fun a b => decide ((P.floats.order b.2 a.2).then (P.localeCompare a.1 b.1) ≠ .gt)).map Prod.fst
  rw [rankedBy, hperm.nodup_iff, List.map_map]
  have hids : ((scoredEntries P memories q queryVec policy).map fun e => e.m.id).Nodup := by
    have hsub : (((scoredEntries P memories q queryVec policy).map (·.m)).map (·.id)).Sublist
        (memories.map (·.id)) := map_scoredEntries_sublist.map _
    rw [List.map_map] at hsub
    exact h.sublist hsub
  exact hids.sublist (List.filter_sublist.map _)

variable (now) in
/-- A score without the points of the standing instructions. -/
theorem within_score (hP : P.floats.Ieee) (h : WellFormed memories)
    (he : e ∈ scoredEntries P memories q queryVec {}) {fused : JsNum} (hfused : Within 0 2 fused) :
    Within (-4) 398 (P.floats.add (P.floats.add (P.floats.mul fused (ofInt 50))
      (modifierScore P e.m (extractQuery P q.query).2 now (defaultFusionWeights P)))
      (ofNat e.scopeScore)) := by
  have hm := mem_of_mem_scoredEntries he
  have hscaled := hfused.mul hP (within_ofInt 50) (le_refl 0) (by norm_num) (by norm_num) (by norm_num)
  have hmod := within_modifierScore hP (h.importance _ hm) (h.confidence _ hm)
    (extractQuery P q.query).2 now
  have hscope : Within 0 150 (ofNat e.scopeScore) :=
    ⟨e.scopeScore, rfl, by positivity, by exact_mod_cast scopeScore_le he⟩
  have hsum := hscaled.add hP hmod (by norm_num) (by norm_num)
  exact (hsum.add hP hscope (by norm_num) (by norm_num)).mono (by norm_num) (by norm_num)

variable (now) in
/-- The points of the standing instructions are more than all that another memory can have. -/
theorem within_final (hP : P.floats.Ieee) (h : WellFormed memories)
    (he : e ∈ scoredEntries P memories q queryVec {}) {fuse : OrdMap String JsNum}
    (hfuse : Within 0 2 ((fuse.get e.m.id).getD (ofInt 0))) :
    (isStandingInstruction e.m true = true →
      Within 996 1398 (mergeEntry P now q {} fuse e).final) ∧
    (¬ isStandingInstruction e.m true = true →
      Within (-4) 398 (mergeEntry P now q {} fuse e).final) := by
  have hscore := within_score now hP h he hfuse
  refine ⟨fun hstanding => ?_, fun hstanding => ?_⟩
  · have hgate := hscore.add hP (within_ofInt 1000) (by norm_num) (by norm_num)
    simp only [mergeEntry, applyStandingGate, hstanding, if_true]
    exact hgate
  · simp only [mergeEntry, applyStandingGate, hstanding]
    exact hscore

variable (P now q queryVec) in
/-- What the two rankings are fused to is worth two at most for each id. -/
theorem exists_gated (hP : P.floats.Ieee) (h : (memories.map (·.id)).Nodup) :
    ∃ fuse : OrdMap String JsNum, (∀ id, Within 0 2 ((fuse.get id).getD (ofInt 0))) ∧
      gated P now memories q queryVec {} =
        ((scoredEntries P memories q queryVec {}).map (mergeEntry P now q {} fuse)).mergeSort
          fun a b => compareMerged P a b ≠ .gt :=
  ⟨_, within_fuseScores hP _ _ (nodup_rankedBy h _) (nodup_rankedBy h _), rfl⟩

/-- The standing instructions are ranked before the other memories. -/
theorem front_gated (hP : P.floats.Ieee) (h : WellFormed memories) :
    Front (fun e => isStandingInstruction e.m true = true) (gated P now memories q queryVec {}) := by
  obtain ⟨fuse, hfuse, hgated⟩ := exists_gated P now q queryVec hP h.ids
  rw [hgated]
  refine Sorting.front_mergeSort fun a ha b hb hpa hpb => ?_
  obtain ⟨d, hd, rfl⟩ := List.mem_map.mp ha
  obtain ⟨e, he, rfl⟩ := List.mem_map.mp hb
  have hhigh := (within_final now hP h hd (hfuse d.m.id)).1 hpa
  have hlow := (within_final now hP h he (hfuse e.m.id)).2 hpb
  have hlt := order_eq_lt hP hlow hhigh (by norm_num) (by norm_num) (by norm_num)
  have hgt := order_eq_gt hP hhigh hlow (by norm_num) (by norm_num) (by norm_num)
  refine ⟨?_, ?_⟩
  · rw [compareMerged, hlt]
    rfl
  · rw [compareMerged, hgt]
    rfl

/-- Nothing is reranked by default. -/
theorem fullRanking_default : fullRanking P now memories q queryVec {} =
    (gated P now memories q queryVec {}).map (·.m) := by
  rw [fullRanking]
  cases usableVector queryVec with
  | none => rfl
  | some v => rfl

theorem front_fullRanking (hP : P.floats.Ieee) (h : WellFormed memories) :
    Front (fun m => isStandingInstruction m true = true) (fullRanking P now memories q queryVec {}) := by
  rw [fullRanking_default]
  exact List.pairwise_map.mpr (front_gated hP h)

/-- Each memory is ranked once. -/
theorem fullRanking_subperm : (fullRanking P now memories q queryVec {}).Subperm memories := by
  have hgated : ((gated P now memories q queryVec {}).map (·.m)).Perm
      ((scoredEntries P memories q queryVec {}).map (·.m)) := by
    refine ((List.mergeSort_perm _ _).map _).trans ?_
    rw [List.map_map]
    exact List.Perm.refl _
  rw [fullRanking_default]
  exact hgated.subperm.trans map_scoredEntries_sublist.subperm

/-- Without hits, a pool in the order of its points is ranked as it is. -/
theorem fullRanking_of_sorted (hseeds : q.candidates = [])
    (hpasses : ∀ m ∈ memories, passesGates P q queryVec {} m = true)
    (hkw : ∀ e ∈ scoredEntries P memories q queryVec {}, less (ofInt 0) e.kwScore = false)
    (hvec : ∀ e ∈ scoredEntries P memories q queryVec {}, less (ofInt 0) e.vecScore = false)
    (hsorted : ((scoredEntries P memories q queryVec {}).map (mergeEntry P now q {} .empty)).Pairwise
      fun a b => compareMerged P a b ≠ .gt) :
    fullRanking P now memories q queryVec {} = memories := by
  have hempty (score : ScoredEntry → JsNum)
      (hscore : ∀ e ∈ scoredEntries P memories q queryVec {}, less (ofInt 0) (score e) = false) :
      rankedBy P score (scoredEntries P memories q queryVec {}) = [] := by
    have hfilter : ((scoredEntries P memories q queryVec {}).filter
        fun e => less (ofInt 0) (score e)) = [] :=
      List.filter_eq_nil_iff.mpr fun e he => by simp [hscore e he]
    rw [rankedBy, hfilter, List.map_nil, List.mergeSort_nil]
  have hgated : gated P now memories q queryVec {} =
      (scoredEntries P memories q queryVec {}).map (mergeEntry P now q {} .empty) := by
    rw [gated, hempty _ hkw, hempty _ hvec]
    exact List.mergeSort_of_pairwise (hsorted.imp fun h => decide_eq_true h)
  rw [fullRanking_default, hgated, List.map_map, scoredEntries, List.filter_eq_self.mpr hpasses, seeded]
  simp only [hseeds, ne_eq, not_true_eq_false, decide_false, Bool.false_and, Bool.false_eq_true, if_false,
    List.map_map]
  exact List.map_id _

theorem currentRanking_sublist : (currentRanking P now memories q queryVec policy).Sublist
    (fullRanking P now memories q queryVec policy) := by
  rw [currentRanking, withoutSuperseded]
  split_ifs
  · exact List.Sublist.refl _
  · exact List.filter_sublist

end Scored

end Remembra.Retrieval
