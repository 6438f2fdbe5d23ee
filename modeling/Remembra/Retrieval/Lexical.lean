import Mathlib.Algebra.Order.BigOperators.Group.List
import Remembra.Retrieval.Explained

/-! The laws of the lexical score. What a term earns depends on how it is found in the content and in the
    tags, and on its rarity; a phrase adds half of what the whole tokens of the content have earned. That is
    at most two for each term, the headroom of the denominator, so the score is never cut off at its cap
    (`keywordScore_laws`), and more is earned by what matches better. -/

namespace Remembra.Retrieval
open Store (Memory JsNum)

/-! ### Rarity -/

/-- The natural logarithm, as far as the rarity of a term needs it. -/
structure Floats.Logarithm (F : Floats) : Prop where
  one : F.log (.finite 1) = .finite 0
  pos : ∀ a : ℚ, 1 < a → ∃ q : ℚ, F.log (.finite a) = .finite q ∧ 0 < q
  mono : ∀ a b p q : ℚ, a ≤ b → F.log (.finite a) = .finite p → F.log (.finite b) = .finite q → p ≤ q

section Rarity
variable (P : Platform) (stats : TermStatistics)

/-- The factor of a term, where it is a number. -/
def rarity (term : String) : ℚ :=
  match normalisedIdf P stats term with
  | .finite q => q
  | _ => 0

/-- The factor is above zero, and at most one. -/
structure Rare (term : String) : Prop where
  finite : normalisedIdf P stats term = .finite (rarity P stats term)
  pos : 0 < rarity P stats term
  le_one : rarity P stats term ≤ 1

/-- How many documents a term is taken to be in. -/
def frequencyOf (count : ℚ) (term : String) : ℚ :=
  match stats.documentFrequency term with
  | none => count
  | some df => max 1 (df : ℚ)

end Rarity

section
variable {P : Platform} {stats : TermStatistics} {count : ℚ}

theorem rare_of_eq {term : String} {q : ℚ} (h : normalisedIdf P stats term = .finite q) (hpos : 0 < q)
    (hone : q ≤ 1) : Rare P stats term := by
  have hq : rarity P stats term = q := by rw [rarity, h]
  exact ⟨by rw [hq, h], by rwa [hq], by rwa [hq]⟩

variable (stats) in
theorem frequencyOf_pos (hcount : 0 < count) (term : String) : 0 < frequencyOf stats count term := by
  rw [frequencyOf]
  split
  · exact hcount
  · exact lt_of_lt_of_le one_pos (le_max_left _ _)

theorem normalisedIdf_of_nonpos (hstats : stats.documentCount = .finite count) (hcount : count ≤ 0)
    (term : String) : normalisedIdf P stats term = ofInt 1 := by
  have hnone : atMost stats.documentCount (ofInt 0) = true := by
    rw [hstats]
    rcases hcount.lt_or_eq with h | h
    · simp [atMost, less, ofInt, h]
    · simp [atMost, ofInt, h]
  rw [normalisedIdf, if_pos hnone]

theorem larger_one (df : ℕ) : larger (ofInt 1) (ofNat df) = .finite (max 1 (df : ℚ)) := by
  simp only [larger, ofInt, ofNat, less, reduceCtorEq, or_self, if_false, decide_eq_true_eq, Int.cast_one]
  split_ifs with h
  · rw [max_eq_right h.le]
  · rw [max_eq_left (not_lt.mp h)]

theorem normalisedIdf_of_pos (hstats : stats.documentCount = .finite count) (hcount : 0 < count)
    (term : String) : normalisedIdf P stats term =
      let ceiling := P.floats.log (P.floats.add (ofInt 1) (.finite count))
      if atMost ceiling (ofInt 0) then ofInt 1
      else larger (ofInt 0) (smaller (ofInt 1) (P.floats.div (P.floats.log (P.floats.add (ofInt 1)
        (P.floats.div (.finite count) (.finite (frequencyOf stats count term))))) ceiling)) := by
  have hsome : atMost stats.documentCount (ofInt 0) = false := by
    rw [hstats]
    simp [atMost, less, ofInt, hcount.le, hcount.ne']
  rw [normalisedIdf, hsome, frequencyOf, hstats]
  cases stats.documentFrequency term with
  | none => rfl
  | some df =>
    dsimp only
    rw [larger_one]
    rfl

theorem normalisedIdf_eq (hF : P.floats.Exact) (hlog : P.floats.Logarithm)
    (hstats : stats.documentCount = .finite count) (hcount : 0 < count) (term : String) :
    ∃ c r : ℚ, 0 < c ∧ 0 < r ∧ P.floats.log (.finite (1 + count)) = .finite c ∧
      P.floats.log (.finite (1 + count / frequencyOf stats count term)) = .finite r ∧
      normalisedIdf P stats term = .finite (min 1 (r / c)) := by
  have hfrequency := frequencyOf_pos stats hcount term
  obtain ⟨c, hc, hcpos⟩ := hlog.pos (1 + count) (by linarith)
  obtain ⟨r, hr, hrpos⟩ := hlog.pos (1 + count / frequencyOf stats count term)
    (by linarith [div_pos hcount hfrequency])
  refine ⟨c, r, hcpos, hrpos, hc, hr, ?_⟩
  have hratio := div_pos hrpos hcpos
  have hceiling : atMost (.finite c) (ofInt 0) = false := by
    simp [atMost, less, ofInt, hcpos.le, hcpos.ne']
  rw [normalisedIdf_of_pos hstats hcount]
  simp only [ofInt, add_finite hF, div_finite hF count hfrequency.ne', Int.cast_one, hc, hr,
    div_finite hF r hcpos.ne'] at hceiling ⊢
  rw [hceiling]
  have hpos : 0 < min 1 (r / c) := lt_min one_pos hratio
  have hmin : smaller (.finite 1) (.finite (r / c)) = .finite (min 1 (r / c)) := by
    simp only [smaller, less, reduceCtorEq, or_self, if_false, decide_eq_true_eq]
    split_ifs with h
    · rw [min_eq_right h.le]
    · rw [min_eq_left (not_lt.mp h)]
  rw [hmin]
  simp [larger, less, hpos]

/-- With a logarithm, every term has a factor above zero that is at most one. -/
theorem rare_of_logarithm (hF : P.floats.Exact) (hlog : P.floats.Logarithm)
    (hstats : stats.documentCount = .finite count) (term : String) : Rare P stats term := by
  rcases le_or_gt count 0 with hcount | hcount
  · have hone : normalisedIdf P stats term = .finite 1 := by
      rw [normalisedIdf_of_nonpos hstats hcount]
      rfl
    exact rare_of_eq hone one_pos (le_refl 1)
  · obtain ⟨c, r, hc, hr, -, -, hidf⟩ := normalisedIdf_eq hF hlog hstats hcount term
    exact rare_of_eq hidf (lt_min one_pos (div_pos hr hc)) (min_le_left _ _)

/-- A term that is in more documents has no larger factor. -/
theorem rarity_antitone (hF : P.floats.Exact) (hlog : P.floats.Logarithm)
    (hstats : stats.documentCount = .finite count) {rare common : String} {a b : ℕ}
    (hrare : stats.documentFrequency rare = some a) (hcommon : stats.documentFrequency common = some b)
    (hab : a ≤ b) : rarity P stats common ≤ rarity P stats rare := by
  rcases le_or_gt count 0 with hcount | hcount
  · rw [rarity, rarity, normalisedIdf_of_nonpos hstats hcount, normalisedIdf_of_nonpos hstats hcount]
  · obtain ⟨c, r, hcpos, -, hc, hr, hidf⟩ := normalisedIdf_eq hF hlog hstats hcount rare
    obtain ⟨d, t, -, -, hd, ht, hidf'⟩ := normalisedIdf_eq hF hlog hstats hcount common
    rw [hc] at hd
    obtain rfl : c = d := by simpa using hd
    have hfrequency : frequencyOf stats count rare ≤ frequencyOf stats count common := by
      rw [frequencyOf, frequencyOf, hrare, hcommon]
      exact max_le_max (le_refl 1) (by exact_mod_cast hab)
    have hquotient : count / frequencyOf stats count common ≤ count / frequencyOf stats count rare :=
      div_le_div_of_nonneg_left hcount.le (frequencyOf_pos stats hcount rare) hfrequency
    have htr : t ≤ r := hlog.mono _ _ t r (by linarith) ht hr
    rw [rarity, rarity, hidf, hidf']
    exact min_le_min (le_refl 1) (div_le_div_of_nonneg_right htr hcpos.le)

end

/-! ### How a term is found -/

/-- How a term is found among the tokens of a field. -/
inductive Found where
  | absent | prefixed | exact
  deriving DecidableEq

/-- An empty term is not looked for. -/
def found (term : String) (tokens : List String) : Found :=
  if term = "" then .absent
  else if term ∈ tokens then .exact
  else if tokens.any (isPrefixed term) then .prefixed
  else .absent

/-- The share of a field's weight that a term earns. -/
def Found.share : Found → ℚ
  | .absent => 0
  | .prefixed => 35 / 100
  | .exact => 1

/-- What comes later is the better match. -/
def Found.rank : Found → ℕ
  | .absent => 0
  | .prefixed => 1
  | .exact => 2

theorem share_lt {a b : Found} (h : a.rank < b.rank) : a.share < b.share := by
  cases a <;> cases b <;> simp [Found.rank] at h <;> norm_num [Found.share]

theorem share_nonneg (a : Found) : 0 ≤ a.share := by
  cases a <;> norm_num [Found.share]

theorem share_le_one (a : Found) : a.share ≤ 1 := by
  cases a <;> norm_num [Found.share]

section Score
variable (P : Platform) (stats : TermStatistics) (content tags : List String)

/-- What a term earns at the default weights. -/
def termCredit (rawTerm : String) : ℚ :=
  let term := P.text.lower rawTerm
  rarity P stats term * ((found term content).share + (found term tags).share / 2)

/-- What it earns as a whole token of the content. -/
def exactCredit (rawTerm : String) : ℚ :=
  let term := P.text.lower rawTerm
  if found term content = .exact then rarity P stats term else 0

/-- There is more than one term, and they stand in the content one after the other. -/
def isPhrase (terms : List String) : Bool :=
  1 < terms.length && decide (terms.map P.text.lower <:+: content)

/-- What the terms earn together, over the headroom of two for each. -/
def coverage (terms : List String) : ℚ :=
  ((terms.map (termCredit P stats content tags)).sum +
    if isPhrase P content terms then (terms.map (exactCredit P stats content)).sum / 2 else 0) /
    (2 * terms.length)

end Score

section Loop
variable {P : Platform} {stats : TermStatistics} {content tags : List String} {terms : List String}
  {rawTerm term : String}

theorem addFieldCredit_eq (hF : P.floats.Exact) (hterm : term ≠ "") (tokens : List String) (w idf c : ℚ) :
    addFieldCredit P (.finite w) (.finite (35 / 100)) (.finite idf) tokens term (.finite c) =
      .finite (c + w * idf * (found term tokens).share) := by
  rw [addFieldCredit, found, if_neg hterm]
  simp only [mul_finite hF, add_finite hF]
  split_ifs
  · simp only [Found.share, mul_one]
  · simp only [Found.share]
    ring_nf
  · simp only [Found.share, mul_zero, add_zero]

theorem found_empty (tokens : List String) : found "" tokens = .absent := if_pos rfl

theorem found_eq_exact (hterm : term ≠ "") (tokens : List String) :
    found term tokens = .exact ↔ term ∈ tokens := by
  rw [found, if_neg hterm]
  split_ifs with hmem <;> simp [hmem]

/-- One round of the loop. -/
theorem addTerm_eq (hF : P.floats.Exact) (h : Rare P stats (P.text.lower rawTerm)) (a b : ℚ) :
    addTerm P (defaultLexicalWeights P) stats content tags ⟨.finite a, .finite b⟩ rawTerm =
      ⟨.finite (a + termCredit P stats content tags rawTerm),
        .finite (b + exactCredit P stats content rawTerm)⟩ := by
  rw [addTerm, termCredit, exactCredit]
  dsimp only
  by_cases hterm : P.text.lower rawTerm = ""
  · simp [hterm, found_empty, Found.share]
  · have hzero : ofInt 0 = .finite 0 := rfl
    have hone : ofInt 1 = .finite 1 := rfl
    rw [if_neg hterm, h.finite, defaultLexicalWeights]
    simp only [Floats.literal, hF.round, hzero, hone, addFieldCredit_eq hF hterm, add_finite hF,
      mul_finite hF, found_eq_exact hterm]
    congr 1
    · congr 1
      ring
    · split_ifs
      · rw [one_mul]
      · rw [add_zero]

/-- All rounds. -/
theorem foldl_addTerm (hF : P.floats.Exact) (h : ∀ t ∈ terms, Rare P stats (P.text.lower t)) (a b : ℚ) :
    terms.foldl (addTerm P (defaultLexicalWeights P) stats content tags) ⟨.finite a, .finite b⟩ =
      ⟨.finite (a + (terms.map (termCredit P stats content tags)).sum),
        .finite (b + (terms.map (exactCredit P stats content)).sum)⟩ := by
  induction terms generalizing a b with
  | nil => simp
  | cons t terms ih =>
    rw [List.forall_mem_cons] at h
    rw [List.foldl_cons, addTerm_eq hF h.1, ih h.2, List.map_cons, List.map_cons, List.sum_cons,
      List.sum_cons, add_assoc, add_assoc]

variable (content tags) in
theorem termCredit_nonneg (h : Rare P stats (P.text.lower rawTerm)) :
    0 ≤ termCredit P stats content tags rawTerm := by
  have hcontent := share_nonneg (found (P.text.lower rawTerm) content)
  have htags := share_nonneg (found (P.text.lower rawTerm) tags)
  exact mul_nonneg h.pos.le (by linarith)

variable (content tags) in
theorem termCredit_le (h : Rare P stats (P.text.lower rawTerm)) :
    termCredit P stats content tags rawTerm ≤ 3 / 2 := by
  have hcontent := share_le_one (found (P.text.lower rawTerm) content)
  have htags := share_le_one (found (P.text.lower rawTerm) tags)
  have hcontent' := share_nonneg (found (P.text.lower rawTerm) content)
  have htags' := share_nonneg (found (P.text.lower rawTerm) tags)
  calc termCredit P stats content tags rawTerm
      ≤ 1 * ((found (P.text.lower rawTerm) content).share + (found (P.text.lower rawTerm) tags).share / 2) :=
        mul_le_mul_of_nonneg_right h.le_one (by linarith)
    _ ≤ 3 / 2 := by linarith

variable (content) in
theorem exactCredit_nonneg (h : Rare P stats (P.text.lower rawTerm)) :
    0 ≤ exactCredit P stats content rawTerm := by
  rw [exactCredit]
  split_ifs
  · exact h.pos.le
  · exact le_refl 0

variable (content) in
theorem exactCredit_le (h : Rare P stats (P.text.lower rawTerm)) :
    exactCredit P stats content rawTerm ≤ 1 := by
  rw [exactCredit]
  split_ifs
  · exact h.le_one
  · exact zero_le_one

theorem sum_nonneg_of_terms {f : String → ℚ} (h : ∀ t ∈ terms, 0 ≤ f t) : 0 ≤ (terms.map f).sum := by
  refine List.sum_nonneg fun x hx => ?_
  obtain ⟨t, ht, rfl⟩ := List.mem_map.mp hx
  exact h t ht

theorem sum_le_of_terms {f : String → ℚ} {c : ℚ} (h : ∀ t ∈ terms, f t ≤ c) :
    (terms.map f).sum ≤ terms.length * c := by
  have hsum := List.sum_le_card_nsmul (terms.map f) c fun x hx => by
    obtain ⟨t, ht, rfl⟩ := List.mem_map.mp hx
    exact h t ht
  rwa [List.length_map, nsmul_eq_mul] at hsum

variable (content tags) in
theorem coverage_nonneg (h : ∀ t ∈ terms, Rare P stats (P.text.lower t)) :
    0 ≤ coverage P stats content tags terms := by
  have hterms := sum_nonneg_of_terms fun t ht =>
    termCredit_nonneg content tags (h t ht)
  have hexact := sum_nonneg_of_terms fun t ht => exactCredit_nonneg content (h t ht)
  refine div_nonneg ?_ (by positivity)
  split_ifs <;> linarith

variable (content tags) in
/-- The headroom is enough. -/
theorem coverage_le_one (hne : terms ≠ []) (h : ∀ t ∈ terms, Rare P stats (P.text.lower t)) :
    coverage P stats content tags terms ≤ 1 := by
  have hterms := sum_le_of_terms fun t ht => termCredit_le content tags (h t ht)
  have hexact := sum_le_of_terms fun t ht => exactCredit_le content (h t ht)
  have hlength : (0 : ℚ) < terms.length := by exact_mod_cast List.length_pos_of_ne_nil hne
  rw [coverage, div_le_one (by linarith)]
  split_ifs <;> linarith

end Loop

/-! ### The laws -/

section Laws
variable {P : Platform} {stats : TermStatistics} {terms : List String} {m n : Memory}

/-- The tokens of the tags. -/
def tagTokens (P : Platform) (m : Memory) : List String := m.tags.flatMap (tokenize P)

/-- The bonus of a phrase is half of what its terms have earned. -/
theorem matched_eq (hF : P.floats.Exact) (content : List String) (a : ℚ) {e : ℚ} (he : 0 ≤ e) :
    (if 1 < terms.length && less (ofInt 0) (.finite e) && decide (terms.map P.text.lower <:+: content) then
        P.floats.add (.finite a)
          (P.floats.mul (.finite e) (P.floats.sub (defaultLexicalWeights P).phrase (ofInt 1)))
      else .finite a) = .finite (a + if isPhrase P content terms then e / 2 else 0) := by
  have hhalf : P.floats.mul (.finite e) (P.floats.sub (defaultLexicalWeights P).phrase (ofInt 1)) =
      .finite (e / 2) := by
    have hphrase : (defaultLexicalWeights P).phrase = .finite (3 / 2) := hF.round (3 / 2)
    rw [hphrase, ofInt, sub_finite hF, mul_finite hF]
    push_cast
    ring_nf
  rw [hhalf, add_finite hF, isPhrase]
  rcases he.eq_or_lt with hzero | hpos
  · simp [← hzero]
  · have hless : less (ofInt 0) (.finite e) = true := by simpa [less, ofInt] using hpos
    rw [hless, Bool.and_true]
    split_ifs
    · rfl
    · rw [add_zero]

/-- The cap changes nothing. -/
theorem capped_eq (hF : P.floats.Exact) {q : ℚ} (hnonneg : 0 ≤ q) (hone : q ≤ 1) :
    (if atMost (.finite q) (ofInt 0) then ofInt 0
      else if atMost (ofInt 1) (.finite q) then ofInt 60
      else P.floats.mul (.finite q) (ofInt 60)) = .finite (60 * q) := by
  simp only [atMost, less, ofInt, Bool.or_eq_true, Bool.and_eq_true, decide_eq_true_eq, JsNum.finite.injEq,
    mul_finite hF]
  split_ifs with hzero hcap
  · have hq : q = 0 := by
      rcases hzero with h | h
      · push_cast at h
        linarith
      · exact_mod_cast h.1
    rw [hq]
    norm_num
  · have hq : q = 1 := by
      rcases hcap with h | h
      · push_cast at h
        linarith
      · exact_mod_cast h.1.symm
    rw [hq]
    norm_num
  · push_cast
    rw [mul_comm]

/-- The score is the coverage of sixty points, without the cap. -/
theorem keywordScore_eq (hF : P.floats.Exact) (hne : terms ≠ [])
    (h : ∀ t ∈ terms, Rare P stats (P.text.lower t)) :
    keywordScore P m terms (defaultLexicalWeights P) stats =
      .finite (60 * coverage P stats (tokenize P m.content) (tagTokens P m) terms) := by
  have hlength : (0 : ℚ) < terms.length := by exact_mod_cast List.length_pos_of_ne_nil hne
  have hnonneg := coverage_nonneg (tokenize P m.content) (tagTokens P m) h
  have hone := coverage_le_one (tokenize P m.content) (tagTokens P m) hne h
  have hexact := sum_nonneg_of_terms fun t ht =>
    exactCredit_nonneg (tokenize P m.content) (h t ht)
  have hcredits : terms.foldl (addTerm P (defaultLexicalWeights P) stats (tokenize P m.content)
      (m.tags.flatMap (tokenize P))) {} = _ := foldl_addTerm hF h 0 0
  have hmax : P.floats.mul (P.floats.mul (ofNat terms.length) (defaultLexicalWeights P).content)
      lexicalHeadroom = .finite (2 * terms.length) := by
    rw [ofNat, defaultLexicalWeights, lexicalHeadroom, ofInt, ofInt, mul_finite hF, mul_finite hF]
    push_cast
    ring_nf
  have hsome : atMost (.finite (2 * terms.length)) (ofInt 0) = false := by
    simp [atMost, less, ofInt, hne]
  rw [keywordScore, if_neg hne]
  dsimp only
  rw [hcredits, hmax, hsome]
  dsimp only
  rw [zero_add, zero_add, matched_eq hF _ _ hexact, div_finite hF _ (by linarith)]
  exact capped_eq hF hnonneg hone

theorem less_of_coverage_lt (hF : P.floats.Exact) (hne : terms ≠ [])
    (h : ∀ t ∈ terms, Rare P stats (P.text.lower t))
    (hlt : coverage P stats (tokenize P m.content) (tagTokens P m) terms <
      coverage P stats (tokenize P n.content) (tagTokens P n) terms) :
    less (keywordScore P m terms (defaultLexicalWeights P) stats)
      (keywordScore P n terms (defaultLexicalWeights P) stats) = true := by
  rw [keywordScore_eq hF hne h, keywordScore_eq hF hne h, less, decide_eq_true_eq]
  linarith

/-- A single term is no phrase. -/
theorem coverage_single (content tags : List String) (term : String) :
    coverage P stats content tags [term] = termCredit P stats content tags term / 2 := by
  simp [coverage, isPhrase]

theorem found_perm {content content' : List String} (h : content.Perm content') (term : String) :
    found term content = found term content' := by
  simp only [found, h.mem_iff, h.any_eq]

/-- Where the whole terms are found, the phrase makes the difference. -/
theorem coverage_lt_of_phrase {content content' tags : List String} (hrare : ∀ term, Rare P stats term)
    (hperm : content.Perm content')
    (hfound : ∀ t ∈ terms, found (P.text.lower t) content = .exact)
    (hphrase : terms.map P.text.lower <:+: content') (hnone : ¬ terms.map P.text.lower <:+: content) :
    coverage P stats content tags terms < coverage P stats content' tags terms := by
  have hne : terms ≠ [] := by
    rintro rfl
    exact hnone (List.nil_infix)
  have hmany : 1 < terms.length := by
    by_contra hfew
    have hone : terms.length = 1 := by
      have hpos := List.length_pos_of_ne_nil hne
      omega
    obtain ⟨t, rfl⟩ := List.length_eq_one_iff.mp hone
    have hexact := hfound t List.mem_cons_self
    have hterm : P.text.lower t ≠ "" := by
      intro hempty
      rw [hempty, found_empty] at hexact
      cases hexact
    rw [found_eq_exact hterm] at hexact
    obtain ⟨before, behind, rfl⟩ := List.append_of_mem hexact
    exact hnone ⟨before, behind, by simp⟩
  have hcredits :
      terms.map (termCredit P stats content tags) = terms.map (termCredit P stats content' tags) :=
    List.map_congr_left fun t _ => by rw [termCredit, termCredit, found_perm hperm]
  have hpos : 0 < (terms.map (exactCredit P stats content')).sum := by
    refine List.sum_pos _ (fun x hx => ?_) (by simpa using hne)
    obtain ⟨t, ht, rfl⟩ := List.mem_map.mp hx
    rw [exactCredit, ← found_perm hperm, if_pos (hfound t ht)]
    exact (hrare _).pos
  have hlength : (0 : ℚ) < 2 * terms.length := by
    have hpositive : (0 : ℚ) < terms.length := by exact_mod_cast List.length_pos_of_ne_nil hne
    linarith
  have hwith : isPhrase P content' terms = true := by
    rw [isPhrase, Bool.and_eq_true, decide_eq_true_eq, decide_eq_true_eq]
    exact ⟨hmany, hphrase⟩
  have hwithout : isPhrase P content terms = false := by
    rw [isPhrase, Bool.and_eq_false_iff, decide_eq_false_iff_not, decide_eq_false_iff_not]
    exact .inr hnone
  rw [coverage, coverage, hcredits, hwith, hwithout]
  refine div_lt_div_of_pos_right ?_ hlength
  simp only [Bool.false_eq_true, if_false, if_true]
  linarith

theorem map_eq_of_map_eq {α β γ : Type*} {f : α → β} {g : α → γ} (h : ∀ a b, f a = f b → g a = g b)
    {l l' : List α} (hl : l.map f = l'.map f) : l.map g = l'.map g := by
  induction l generalizing l' with
  | nil => rw [List.map_eq_nil_iff.mp hl.symm]
  | cons a l ih =>
    obtain ⟨b, l', rfl, hab, hrest⟩ := List.map_eq_cons_iff.mp hl.symm
    rw [List.map_cons, List.map_cons, h b a hab, ih hrest.symm]

theorem tokenize_congr {s t : String} (h : P.text.lower s = P.text.lower t) :
    tokenize P s = tokenize P t := by
  rw [tokenize, tokenize, h]

/-- Only what a term is in lower case counts. -/
theorem foldl_addTerm_congr {terms' : List String} (w : LexicalWeights) (content tags : List String)
    (h : terms.map P.text.lower = terms'.map P.text.lower) (credits : Credits) :
    terms.foldl (addTerm P w stats content tags) credits =
      terms'.foldl (addTerm P w stats content tags) credits := by
  have hrounds : terms.map (fun t credits => addTerm P w stats content tags credits t) =
      terms'.map (fun t credits => addTerm P w stats content tags credits t) := by
    refine map_eq_of_map_eq (fun s t hst => ?_) h
    funext credits
    rw [addTerm, addTerm, hst]
  have hfold (l : List String) : l.foldl (addTerm P w stats content tags) credits =
      (l.map fun t credits => addTerm P w stats content tags credits t).foldl (fun c f => f c) credits := by
    rw [List.foldl_map]
  rw [hfold, hfold, hrounds]

theorem keywordScore_congr {terms' : List String} (w : LexicalWeights)
    (hcontent : P.text.lower m.content = P.text.lower n.content)
    (htags : m.tags.map P.text.lower = n.tags.map P.text.lower)
    (hterms : terms.map P.text.lower = terms'.map P.text.lower) :
    keywordScore P m terms w stats = keywordScore P n terms' w stats := by
  have htokens : m.tags.flatMap (tokenize P) = n.tags.flatMap (tokenize P) := by
    rw [List.flatMap_def, List.flatMap_def, map_eq_of_map_eq (fun s t => tokenize_congr) htags]
  have hlength : terms.length = terms'.length := by simpa using congrArg List.length hterms
  have hnil : terms = [] ↔ terms' = [] := by
    rw [← List.length_eq_zero_iff, ← List.length_eq_zero_iff, hlength]
  simp only [keywordScore, hnil, tokenize_congr hcontent, htokens, hlength, hterms,
    foldl_addTerm_congr w _ _ hterms]

end Laws

end Remembra.Retrieval
