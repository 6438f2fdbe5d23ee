import Mathlib.Analysis.SpecialFunctions.Log.Basic
import Remembra.Store.Record

/-! The health of a memory: seven scores, weighed. The weights that an operator sets are to sum to one with
    what is left spread over the others. They do where something is left to spread and something is set,
    or nothing is missing and the sum is one already (`weightLaws_iff`); then health is a score, since it
    is a mean of scores (`computeHealth_score`). -/

namespace Remembra.Health
open Store (JsNum Host TrustLevel Vocabulary)

/-! ### The weights -/

/-- The keys of `DecayWeights`. -/
inductive WeightKey where
  | age | lastSeen | importance | confidence | retrieval | trust | relations
  deriving DecidableEq

instance : Vocabulary WeightKey where
  options := [.age, .lastSeen, .importance, .confidence, .retrieval, .trust, .relations]
  text
    | .age => "age"
    | .lastSeen => "lastSeen"
    | .importance => "importance"
    | .confidence => "confidence"
    | .retrieval => "retrieval"
    | .trust => "trust"
    | .relations => "relations"
  complete e := by cases e <;> decide
  text_inj e f := by cases e <;> cases f <;> decide

abbrev DecayWeights := WeightKey → ℚ

/-- `DEFAULT_WEIGHTS` -/
def defaultWeights : DecayWeights
  | .age => 0.15
  | .lastSeen => 0.25
  | .importance => 0.20
  | .confidence => 0.10
  | .retrieval => 0.15
  | .trust => 0.10
  | .relations => 0.05

/-- A number between zero and one. -/
abbrev Share := Set.Icc (0 : ℚ) 1

/-- The names that `in` finds in every object; a number assigned to `__proto__` is dropped. -/
def inheritedNames : List String :=
  ["constructor", "__defineGetter__", "__defineSetter__", "hasOwnProperty", "__lookupGetter__",
    "__lookupSetter__", "isPrototypeOf", "propertyIsEnumerable", "toString", "valueOf", "toLocaleString"]

/-- `Partial<DecayWeights>`, and what an inherited name was assigned. -/
structure PartialWeights where
  weights : WeightKey → Option Share := fun _ => none
  others : List (String × Share) := []

/-- `if (k in DEFAULT_WEIGHTS) out[k] = num` -/
def PartialWeights.assign (out : PartialWeights) (k : String) (num : Share) : PartialWeights :=
  match Vocabulary.ofText k with
  | some key => { out with weights := Function.update out.weights key (some num) }
  | none =>
    if k ∈ inheritedNames then { out with others := (k, num) :: out.others.filter fun o => o.1 ≠ k } else out

section Parse
variable (h : Host)

/-- One pair: its key and its number. -/
def readPair (pair : String) : Option (String × JsNum) :=
  match (Jobs.trim pair).toList.splitOn '=' with
  | k :: v :: _ => if k = [] ∨ v = [] then none else some (.ofList k, h.toNumber (.ofList v))
  | _ => none

def PartialWeights.take (out : PartialWeights) : String × JsNum → PartialWeights
  | (k, .finite q) => if hq : 0 ≤ q ∧ q ≤ 1 then out.assign k ⟨q, hq⟩ else out
  | _ => out

/-- `out`, after the pairs. -/
def suppliedWeights (raw : String) : PartialWeights :=
  ((raw.toList.splitOn ';').filterMap fun pair => readPair h (.ofList pair)).foldl PartialWeights.take {}

/-- What the operator gave to the seven keys. -/
def PartialWeights.own (out : PartialWeights) : ℚ :=
  ((Vocabulary.options (ε := WeightKey)).map fun key => (out.weights key).elim 0 Subtype.val).sum

/-- What went to other names. -/
def PartialWeights.lost (out : PartialWeights) : ℚ := (out.others.map fun o => o.2.val).sum

/-- `total` -/
def PartialWeights.total (out : PartialWeights) : ℚ := out.own + out.lost

def PartialWeights.missing (out : PartialWeights) : List WeightKey :=
  Vocabulary.options.filter fun key => (out.weights key).isNone

def PartialWeights.distribute (out : PartialWeights) : ℚ :=
  if 0 < out.total then (1 - out.total) / out.missing.length else 0

/-- `raw` is `process.env.REMEMBRA_DECAY_WEIGHTS`. -/
def parseDecayWeights (raw : Option String) : DecayWeights :=
  match raw with
  | none | some "" => defaultWeights
  | some raw =>
    let out := suppliedWeights h raw
    fun key => (out.weights key).elim out.distribute Subtype.val

end Parse

/-! ### The scores -/

/-- What `computeHealth` reads of a memory. -/
structure Memory where
  createdAt : String
  updatedAt : String
  lastSeen : Option String := none
  importance : Option ℚ := none
  confidence : Option ℚ := none
  trust : TrustLevel

/-- What `computeHealth` reads of an `AgingContext`: two counts. -/
structure AgingContext where
  retrievalCount : Option ℕ := none
  relationCount : Option ℕ := none

noncomputable section Scores
variable (h : Host) (nowMs : ℤ)

/-- `Math.exp(-(Math.LN2 * days) / 90)` of a time in milliseconds -/
def halved (ms : ℤ) : ℝ := Real.exp (-(Real.log 2 * (ms / 86400000)) / 90)

/-- No score where the time stamp is not one. -/
def ageScore (createdAt : String) : Option ℝ := (h.dateParse createdAt).map fun t => halved (nowMs - t)

def lastSeenScore (lastSeen : Option String) (updatedAt : String) : ℝ :=
  match h.dateParse (lastSeen.getD updatedAt) with
  | none => 1
  | some t => if nowMs - t < 0 then 1 else halved (nowMs - t)

def trustScore : TrustLevel → ℝ
  | .system => 1.0
  | .verified => 0.95
  | .trusted => 0.8
  | .unverified => 0.4

def retrievalScore : Option ℕ → ℝ
  | none | some 0 => 0.2
  | some count => min 1 (0.5 + 0.45 * (Real.log (count + 1) / Real.log 100))

def relationScore : Option ℕ → ℝ
  | none | some 0 => 0.3
  | some count => min 1 (0.4 + 0.6 * min (count / 10) 1)

def computeHealth (memory : Memory) (ctx : AgingContext) (w : DecayWeights) : Option ℝ :=
  (ageScore h nowMs memory.createdAt).map fun score =>
    let age : ℝ := score * w .age
    let ls : ℝ := lastSeenScore h nowMs (if ctx.retrievalCount.isSome then none else memory.lastSeen)
      memory.updatedAt * w .lastSeen
    let imp : ℝ := ((memory.importance.getD 3 : ℚ) / 5) * w .importance
    let conf : ℝ := (memory.confidence.getD 0.7 : ℚ) * w .confidence
    let ret := retrievalScore ctx.retrievalCount * w .retrieval
    let tru := trustScore memory.trust * w .trust
    let rel := relationScore ctx.relationCount * w .relations
    age + ls + imp + conf + ret + tru + rel

end Scores

/-! ### What is spread over the others -/

/-- A sum over values that are there or replaced. -/
theorem sum_map_elim {ι : Type*} (f : ι → Option Share) (d : ℚ) (keys : List ι) :
    (keys.map fun k => (f k).elim d Subtype.val).sum =
      (keys.map fun k => (f k).elim 0 Subtype.val).sum + (keys.filter fun k => (f k).isNone).length * d := by
  induction keys with
  | nil => simp
  | cons k keys ih =>
    rw [List.map_cons, List.map_cons, List.sum_cons, List.sum_cons, ih]
    cases hk : f k with
    | none =>
      rw [List.filter_cons_of_pos (by rw [hk]; rfl), List.length_cons, Nat.cast_succ]
      simp only [Option.elim_none]
      ring
    | some q =>
      rw [List.filter_cons_of_neg (by rw [hk]; exact Bool.false_ne_true)]
      simp only [Option.elim_some]
      ring

theorem sum_map_nonneg {ι : Type*} (f : ι → ℚ) (hf : ∀ i, 0 ≤ f i) (l : List ι) : 0 ≤ (l.map f).sum := by
  refine List.sum_nonneg fun q hq => ?_
  obtain ⟨i, -, rfl⟩ := List.mem_map.mp hq
  exact hf i

section Weights
variable {out : PartialWeights}

variable (out) in
theorem own_nonneg : 0 ≤ out.own := by
  refine sum_map_nonneg _ (fun key => ?_) _
  cases out.weights key with
  | none => exact le_rfl
  | some q => exact q.2.1

variable (out) in
theorem lost_nonneg : 0 ≤ out.lost := sum_map_nonneg _ (fun o => o.2.2.1) _

/-- The weights that the operator's make. -/
def PartialWeights.spread (out : PartialWeights) : DecayWeights :=
  fun key => (out.weights key).elim out.distribute Subtype.val

/-- Seven shares of a whole, with those that were given in proportion. -/
structure WeightLaws (given : WeightKey → Option Share) (w : DecayWeights) : Prop where
  shares : ∀ key, 0 ≤ w key ∧ w key ≤ 1
  whole : ((Vocabulary.options (ε := WeightKey)).map w).sum = 1
  ratio : ∀ j k a b, given j = some a → given k = some b → w j * b = w k * a

/-- Something is left to spread, and something was given that nothing else takes from; or all was given. -/
def PartialWeights.Spreads (out : PartialWeights) : Prop :=
  out.missing = [] ∧ out.own = 1 ∨ out.missing ≠ [] ∧ out.lost = 0 ∧ 0 < out.own ∧ out.own ≤ 1

theorem spread_sum : ((Vocabulary.options (ε := WeightKey)).map out.spread).sum =
    out.own + out.missing.length * out.distribute := sum_map_elim _ _ _

theorem missing_pos (h : out.missing ≠ []) : (1 : ℚ) ≤ out.missing.length := by
  exact_mod_cast List.length_pos_iff.mpr h

/-- What is spread comes to all that is left. -/
theorem length_mul_distribute (hmissing : out.missing ≠ []) (htotal : 0 < out.total) :
    out.missing.length * out.distribute = 1 - out.total := by
  have hpos := missing_pos hmissing
  rw [PartialWeights.distribute, if_pos htotal]
  exact mul_div_cancel₀ _ (by linarith)

theorem mem_missing {key : WeightKey} (h : out.weights key = none) : key ∈ out.missing :=
  List.mem_filter.mpr ⟨Vocabulary.complete key, by rw [h]; rfl⟩

theorem weightLaws_of_spreads (h : out.Spreads) : WeightLaws out.weights out.spread := by
  have hratio (j k : WeightKey) (a b : Share) (hj : out.weights j = some a) (hk : out.weights k = some b) :
      out.spread j * b = out.spread k * a := by
    simp only [PartialWeights.spread, hj, hk, Option.elim_some]
    ring
  rcases h with ⟨hmissing, hown⟩ | ⟨hmissing, hlost, hpos, hle⟩
  · refine ⟨fun key => ?_, ?_, hratio⟩
    · cases hkey : out.weights key with
      | none =>
        have hmem := mem_missing hkey
        rw [hmissing] at hmem
        cases hmem
      | some q =>
        simp only [PartialWeights.spread, hkey, Option.elim_some]
        exact q.2
    · rw [spread_sum, hmissing, hown]
      simp
  · have htotal : out.total = out.own := by rw [PartialWeights.total, hlost, add_zero]
    have hlength := missing_pos hmissing
    have hspread := length_mul_distribute hmissing (by rw [htotal]; exact hpos)
    rw [htotal] at hspread
    have hnonneg : 0 ≤ out.distribute := by
      by_contra hneg
      have hprod := mul_neg_of_pos_of_neg (by linarith : (0 : ℚ) < out.missing.length) (not_le.mp hneg)
      linarith
    refine ⟨fun key => ?_, ?_, hratio⟩
    · cases hkey : out.weights key with
      | none =>
        simp only [PartialWeights.spread, hkey, Option.elim_none]
        have hless := mul_le_mul_of_nonneg_right hlength hnonneg
        exact ⟨hnonneg, by linarith⟩
      | some q =>
        simp only [PartialWeights.spread, hkey, Option.elim_some]
        exact q.2
    · rw [spread_sum, hspread]
      ring

theorem spreads_of_weightLaws (h : WeightLaws out.weights out.spread) : out.Spreads := by
  have hsum := h.whole
  rw [spread_sum] at hsum
  have hown := own_nonneg out
  have hlost := lost_nonneg out
  by_cases hmissing : out.missing = []
  · rw [hmissing] at hsum
    exact .inl ⟨hmissing, by simpa using hsum⟩
  · refine .inr ⟨hmissing, ?_⟩
    by_cases htotal : 0 < out.total
    · have hspread := length_mul_distribute hmissing htotal
      have hless : 0 ≤ 1 - out.total := by
        obtain ⟨key, hkey⟩ := List.exists_mem_of_ne_nil _ hmissing
        have hnone := Option.isNone_iff_eq_none.mp (List.mem_filter.mp hkey).2
        have hshare := (h.shares key).1
        simp only [PartialWeights.spread, hnone, Option.elim_none] at hshare
        rw [← hspread]
        exact mul_nonneg (Nat.cast_nonneg _) hshare
      rw [hspread] at hsum
      rw [PartialWeights.total] at hsum hless htotal
      exact ⟨by linarith, by linarith, by linarith⟩
    · -- Nothing is spread, so what was given is all there is.
      rw [PartialWeights.distribute, if_neg htotal] at hsum
      rw [PartialWeights.total] at htotal
      exact absurd (by linarith) htotal

end Weights

/-! ### Health is a score -/

section Scores
variable {h : Host} {nowMs : ℤ}

abbrev IsScore (x : ℝ) : Prop := 0 ≤ x ∧ x ≤ 1

theorem halved_score {ms : ℤ} (hms : 0 ≤ ms) : IsScore (halved ms) := by
  refine ⟨(Real.exp_pos _).le, Real.exp_le_one_iff.mpr ?_⟩
  have hlog : 0 ≤ Real.log 2 := Real.log_nonneg (by norm_num)
  have hms' : (0 : ℝ) ≤ ms := by exact_mod_cast hms
  have hdays : 0 ≤ Real.log 2 * (ms / 86400000) := by positivity
  linarith

variable (h nowMs) in
theorem lastSeenScore_score (lastSeen : Option String) (updatedAt : String) :
    IsScore (lastSeenScore h nowMs lastSeen updatedAt) := by
  unfold lastSeenScore
  split
  · exact ⟨zero_le_one, le_rfl⟩
  · split_ifs with hago
    · exact ⟨zero_le_one, le_rfl⟩
    · exact halved_score (not_lt.mp hago)

theorem trustScore_score (trust : TrustLevel) : IsScore (trustScore trust) := by
  cases trust <;> norm_num [trustScore, IsScore]

theorem retrievalScore_score (count : Option ℕ) : IsScore (retrievalScore count) := by
  unfold retrievalScore
  split
  · norm_num [IsScore]
  · norm_num [IsScore]
  · rename_i n _
    refine ⟨le_min zero_le_one ?_, min_le_left _ _⟩
    have hlog : 0 ≤ Real.log (n + 1) := Real.log_nonneg (by linarith [Nat.cast_nonneg (α := ℝ) n])
    have hlog' : 0 ≤ Real.log 100 := Real.log_nonneg (by norm_num)
    positivity

theorem relationScore_score (count : Option ℕ) : IsScore (relationScore count) := by
  unfold relationScore
  split
  · norm_num [IsScore]
  · norm_num [IsScore]
  · refine ⟨le_min zero_le_one ?_, min_le_left _ _⟩
    positivity

/-- A part of health. -/
theorem part_le {x : ℝ} {q : ℚ} (hx : IsScore x) (hq : 0 ≤ q) : 0 ≤ x * q ∧ x * q ≤ q := by
  have hq' : (0 : ℝ) ≤ q := by exact_mod_cast hq
  exact ⟨mul_nonneg hx.1 hq', mul_le_of_le_one_left hq' hx.2⟩

/-- Importance and confidence in their ranges, and created no later than now. -/
structure Memory.Sound (h : Host) (nowMs : ℤ) (memory : Memory) : Prop where
  importance : ∀ i ∈ memory.importance, 1 ≤ i ∧ i ≤ 5
  confidence : ∀ c ∈ memory.confidence, 0 ≤ c ∧ c ≤ 1
  created : ∃ t, h.dateParse memory.createdAt = some t ∧ t ≤ nowMs

theorem importance_score {memory : Memory} (hm : memory.Sound h nowMs) :
    IsScore ((memory.importance.getD 3 : ℚ) / 5) := by
  have hrange : (1 : ℚ) ≤ memory.importance.getD 3 ∧ memory.importance.getD 3 ≤ (5 : ℚ) := by
    cases hi : memory.importance with
    | none => norm_num
    | some i => exact hm.importance i hi
  have hlow : (1 : ℝ) ≤ (memory.importance.getD 3 : ℚ) := by exact_mod_cast hrange.1
  have hhigh : ((memory.importance.getD 3 : ℚ) : ℝ) ≤ 5 := by exact_mod_cast hrange.2
  constructor
  · linarith
  · linarith

theorem confidence_score {memory : Memory} (hm : memory.Sound h nowMs) :
    IsScore (memory.confidence.getD 0.7 : ℚ) := by
  have hrange : (0 : ℚ) ≤ memory.confidence.getD 0.7 ∧ memory.confidence.getD 0.7 ≤ (1 : ℚ) := by
    cases hc : memory.confidence with
    | none => norm_num
    | some c => exact hm.confidence c hc
  exact ⟨by exact_mod_cast hrange.1, by exact_mod_cast hrange.2⟩

/-- A mean of scores is a score. -/
theorem computeHealth_score {given : WeightKey → Option Share} {w : DecayWeights} (hw : WeightLaws given w)
    {memory : Memory} (hm : memory.Sound h nowMs) (ctx : AgingContext) :
    ∃ x, computeHealth h nowMs memory ctx w = some x ∧ 0 ≤ x ∧ x ≤ 1 := by
  obtain ⟨t, ht, hpast⟩ := hm.created
  have hage : ageScore h nowMs memory.createdAt = some (halved (nowMs - t)) := by rw [ageScore, ht]; rfl
  refine ⟨_, by rw [computeHealth, hage, Option.map_some], ?_⟩
  have hnonneg (key : WeightKey) : 0 ≤ w key := (hw.shares key).1
  have hsum : ((w .age + (w .lastSeen + (w .importance + (w .confidence + (w .retrieval + (w .trust +
      w .relations))))) : ℚ) : ℝ) = 1 := by
    have hwhole := hw.whole
    change w .age + (w .lastSeen + (w .importance + (w .confidence + (w .retrieval + (w .trust +
      (w .relations + 0)))))) = 1 at hwhole
    rw [add_zero] at hwhole
    exact_mod_cast hwhole
  push_cast at hsum
  have hold := part_le (halved_score (by omega : 0 ≤ nowMs - t)) (hnonneg .age)
  have hseen := part_le (lastSeenScore_score h nowMs
    (if ctx.retrievalCount.isSome then none else memory.lastSeen) memory.updatedAt) (hnonneg .lastSeen)
  have himp := part_le (importance_score hm) (hnonneg .importance)
  have hconf := part_le (confidence_score hm) (hnonneg .confidence)
  have hret := part_le (retrievalScore_score ctx.retrievalCount) (hnonneg .retrieval)
  have htru := part_le (trustScore_score memory.trust) (hnonneg .trust)
  have hrel := part_le (relationScore_score ctx.relationCount) (hnonneg .relations)
  dsimp only
  constructor
  · linarith [hold.1, hseen.1, himp.1, hconf.1, hret.1, htru.1, hrel.1]
  · linarith [hold.2, hseen.2, himp.2, hconf.2, hret.2, htru.2, hrel.2]

end Scores

/-! ### What the operator set -/

section Operator
variable (h : Host) (raw : Option String)

/-- What the value of the variable gives to the seven keys. -/
def givenWeights : WeightKey → Option Share :=
  match raw with
  | none | some "" => fun _ => none
  | some raw => (suppliedWeights h raw).weights

/-- The variable is not set, or what it gives can be made a whole. -/
def Spreads : Prop :=
  match raw with
  | none | some "" => True
  | some raw => (suppliedWeights h raw).Spreads

theorem weightLaws_default : WeightLaws (fun _ => none) defaultWeights where
  shares key := by cases key <;> norm_num [defaultWeights]
  whole := by norm_num [Vocabulary.options, defaultWeights]
  ratio j k a b hj := by cases hj

/-- The weights are seven shares of a whole, in the proportions that the operator gave, if and only if
    something is left to spread and something was given, or all was given. -/
theorem weightLaws_iff : WeightLaws (givenWeights h raw) (parseDecayWeights h raw) ↔ Spreads h raw := by
  unfold givenWeights parseDecayWeights Spreads
  split
  · exact iff_of_true weightLaws_default trivial
  · exact iff_of_true weightLaws_default trivial
  · exact ⟨spreads_of_weightLaws, weightLaws_of_spreads⟩

/-- The same with the health of every memory, which is then a score. -/
theorem decayWeights_iff : (WeightLaws (givenWeights h raw) (parseDecayWeights h raw) ∧
    ∀ (nowMs : ℤ) (memory : Memory) (ctx : AgingContext), memory.Sound h nowMs →
      ∃ x, computeHealth h nowMs memory ctx (parseDecayWeights h raw) = some x ∧ 0 ≤ x ∧ x ≤ 1) ↔
    Spreads h raw := by
  rw [← weightLaws_iff]
  exact ⟨fun h => h.1, fun hw => ⟨hw, fun nowMs memory ctx hm => computeHealth_score hw hm ctx⟩⟩

end Operator

/-! ### A weight out of its range -/

/-- A platform that knows one number. -/
def twoHost : Host where
  dateParse _ := none
  toISOString _ := ""
  numText _ := ""
  toNumber s := if s = "2" then .finite 2 else .nan
  objText _ := ""

/-- `age=2` is ignored, and so nothing is spread: the weights are all zero. -/
theorem weights_age2 : ¬ ∀ raw, WeightLaws (givenWeights twoHost raw) (parseDecayWeights twoHost raw) := by
  intro hall
  have hwhole := (hall (some "age=2")).whole
  have hzero : ((Vocabulary.options (ε := WeightKey)).map
      (parseDecayWeights twoHost (some "age=2"))).sum = 0 := by decide +kernel
  rw [hzero] at hwhole
  exact absurd hwhole (by norm_num)

end Remembra.Health
