import Remembra.Lib.Utf16
import Remembra.Retrieval.Numbers
import Remembra.Service.Asks

/-! The assembly of a context. Memories are taken in the order of their ranking, as long as the whole text
    stays within the budget; one that does not fit is skipped, and a later one may still fit. For a counter
    that never counts less for more text no skipped memory would fit at the end
    (`selectContextMemories_full`), and the default counter is one of these, although it rounds and counts
    some code points for more. -/

namespace Remembra.Service
open Store (Memory JsNum)
open Retrieval (less isFinite ofNat)
open Utf16 (Units units codePoints Splits isHigh isLow)

/-! ### Counters -/

structure TokenCounter where
  id : String
  count : Units → JsNum

/-- The code points that count for a whole token. -/
def isCjkCode (code : ℕ) : Bool :=
  (0x3400 ≤ code && code ≤ 0x4dbf) || (0x4e00 ≤ code && code ≤ 0x9fff) ||
    (0xf900 ≤ code && code ≤ 0xfaff) || (0x20000 ≤ code && code ≤ 0x2ffff)

/-- No text is so long that its quarters are not exact in floating point. -/
def defaultCount (text : Units) : JsNum :=
  if text = [] then .finite 0
  else
    let cjk := (codePoints text).countP isCjkCode
    let points := (codePoints text).length
    .finite (max 1 ⌈(cjk : ℚ) + (points - cjk) / 4⌉)

def defaultTokenCounter : TokenCounter where
  id := "conservative-estimate-v1"
  count := defaultCount

/-- A counter that returns finite numbers that are not negative, and none that is smaller for a text into
    which another one is inserted, unless that comes between the surrogates of one pair. -/
structure TokenCounter.Monotone (counter : TokenCounter) : Prop where
  finite : ∀ text, ∃ q : ℚ, counter.count text = .finite q ∧ 0 ≤ q
  insert : ∀ a text b, ¬ Splits a b → less (counter.count (a ++ text ++ b)) (counter.count (a ++ b)) = false

/-! ### The selection -/

def renderContextMemory (m : Memory) : String :=
  "[" ++ m.id ++ "] " ++ (Store.Vocabulary.text m.type).toUpper ++ " (scope: " ++ m.scope ++ ", trust: " ++
    Store.Vocabulary.text m.trust ++ ")\n" ++ m.content

structure ContextSelection where
  memories : List Memory := []
  context : String := ""
  omittedCount : ℕ := 0

structure SelectedContext extends ContextSelection where
  tokenCount : JsNum

/-- A text that comes behind a context. -/
def appended (context rendered : String) : String :=
  if context = "" then rendered else context ++ "\n\n" ++ rendered

def TokenCounter.checked (counter : TokenCounter) (text : String) : Except Thrown JsNum :=
  let value := counter.count (units text)
  if !isFinite value || less value (.finite 0) then .error .other else .ok value

/-- The loop over the ranking. -/
def selectFrom (counter : TokenCounter) (maxTokens : JsNum) :
    ContextSelection → List Memory → Except Thrown ContextSelection
  | s, [] => .ok s
  | s, m :: rest => do
    let next := appended s.context (renderContextMemory m)
    let nextCount ← counter.checked next
    if less maxTokens nextCount then
      selectFrom counter maxTokens { s with omittedCount := s.omittedCount + 1 } rest
    else selectFrom counter maxTokens { s with memories := s.memories ++ [m], context := next } rest

/-- `Number.isInteger(n) && n >= 1` -/
def isPositiveInteger : JsNum → Bool
  | .finite q => q.isInt && 1 ≤ q
  | _ => false

def selectContextMemories (ranked : List Memory) (maxTokens : JsNum)
    (counter : TokenCounter := defaultTokenCounter) : Except Thrown SelectedContext := do
  if !isPositiveInteger maxTokens then
    .error (.error ⟨.invalidInput, "maxTokens must be a positive integer"⟩)
  else
    let s ← selectFrom counter maxTokens {} ranked
    let tokenCount ← if s.context = "" then .ok (ofNat 0) else counter.checked s.context
    .ok { s with tokenCount }

/-! ### The default counter -/

section Default
variable {a b text : Units}

/-- Four times what a list of code points counts for, before it is rounded. -/
def quarters (l : List ℕ) : ℕ := (l.map fun code => if isCjkCode code then 4 else 1).sum

@[simp] theorem quarters_cons (code : ℕ) (l : List ℕ) :
    quarters (code :: l) = (if isCjkCode code then 4 else 1) + quarters l := by
  rw [quarters, List.map_cons, List.sum_cons, quarters]

@[simp] theorem quarters_append (k l : List ℕ) : quarters (k ++ l) = quarters k + quarters l := by
  rw [quarters, List.map_append, List.sum_append, quarters, quarters]

theorem length_le_quarters (l : List ℕ) : l.length ≤ quarters l := by
  induction l with
  | nil => exact le_refl 0
  | cons code l ih =>
    rw [List.length_cons, quarters_cons]
    split_ifs <;> omega

theorem four_mul_eq_quarters (l : List ℕ) :
    (4 * ((l.countP isCjkCode : ℕ) : ℚ)) + (l.length - l.countP isCjkCode) = quarters l := by
  induction l with
  | nil => simp [quarters]
  | cons code l ih =>
    rw [quarters_cons, List.countP_cons, List.length_cons]
    push_cast
    rw [← ih]
    split_ifs <;> ring

theorem defaultCount_of_ne (h : text ≠ []) :
    defaultCount text = .finite (max 1 ⌈(quarters (codePoints text) : ℚ) / 4⌉) := by
  rw [defaultCount, if_neg h, ← four_mul_eq_quarters]
  ring_nf

/-- A surrogate alone counts for a quarter. -/
theorem isCjkCode_surrogate {u : UInt16} (h : isHigh u = true ∨ isLow u = true) :
    isCjkCode u.toNat = false := by
  simp only [isHigh, isLow, isCjkCode, Bool.and_eq_true, decide_eq_true_eq, Bool.or_eq_false_iff,
    Bool.and_eq_false_iff, decide_eq_false_iff_not] at h ⊢
  omega

/-- Two texts count for what they count for together, and for one more where a pair is split between
    them. -/
theorem quarters_of_not_splits (h : ¬ Splits a b) :
    quarters (codePoints a) + quarters (codePoints b) = quarters (codePoints (a ++ b)) := by
  rw [Utf16.codePoints_append h, quarters_append]

theorem quarters_of_splits (h : Splits a b) :
    quarters (codePoints a) + quarters (codePoints b) ≤ quarters (codePoints (a ++ b)) + 1 := by
  obtain ⟨u, v, before, behind, hu, hv, ha, hb, hab⟩ := Utf16.codePoints_of_splits h
  rw [ha, hb, hab]
  simp only [quarters_append, quarters_cons, isCjkCode_surrogate (.inl hu), isCjkCode_surrogate (.inr hv),
    Bool.false_eq_true, if_false]
  have hnil : quarters [] = 0 := rfl
  split_ifs <;> omega

theorem quarters_append_le (a b : Units) :
    quarters (codePoints a) + quarters (codePoints b) ≤ quarters (codePoints (a ++ b)) + 1 := by
  by_cases h : Splits a b
  · exact quarters_of_splits h
  · rw [quarters_of_not_splits h]
    omega

theorem quarters_pos (h : text ≠ []) : 1 ≤ quarters (codePoints text) := by
  have hlength := List.length_pos_of_ne_nil (Utf16.codePoints_ne_nil h)
  have hquarters := length_le_quarters (codePoints text)
  omega

/-- A text that is joined to others at both ends is more than one code point. -/
theorem two_le_quarters (hleft : Splits a (text ++ b)) (hright : Splits text b) (h : text ≠ []) :
    2 ≤ quarters (codePoints text) := by
  obtain ⟨v, text, rfl⟩ := List.exists_cons_of_ne_nil h
  obtain ⟨-, -, w, hw, -, hlow⟩ := hleft
  obtain rfl : v = w := by simpa using hw
  have hcodes : codePoints (v :: text) = v.toNat :: codePoints text :=
    Utf16.codePoints_alone fun w _ => by rw [Utf16.not_high_of_low hlow, Bool.false_and]
  have hne : text ≠ [] := by
    rintro rfl
    obtain ⟨u, hu, -, -, hhigh, -⟩ := hright
    obtain rfl : v = u := by simpa using hu
    rw [Utf16.not_low_of_high hhigh] at hlow
    cases hlow
  have hrest := quarters_pos hne
  rw [hcodes, quarters_cons]
  split_ifs <;> omega

theorem quarters_insert (hab : ¬ Splits a b) :
    quarters (codePoints (a ++ b)) ≤ quarters (codePoints (a ++ text ++ b)) := by
  by_cases h : text = []
  · rw [h, List.append_nil]
  rw [← quarters_of_not_splits hab, List.append_assoc]
  have hpos := quarters_pos h
  have hright := quarters_append_le text b
  have hleft := quarters_append_le a (text ++ b)
  by_cases hsl : Splits a (text ++ b)
  · by_cases hsr : Splits text b
    · have htwo := two_le_quarters hsl hsr h
      omega
    · have hright := quarters_of_not_splits hsr
      omega
  · have hleft := quarters_of_not_splits hsl
    omega

theorem defaultCount_nonneg (text : Units) : ∃ q : ℚ, defaultCount text = .finite q ∧ 0 ≤ q := by
  by_cases h : text = []
  · exact ⟨0, if_pos h, le_refl 0⟩
  · refine ⟨_, defaultCount_of_ne h, ?_⟩
    have hone : (1 : ℤ) ≤ max 1 ⌈(quarters (codePoints text) : ℚ) / 4⌉ := le_max_left _ _
    exact_mod_cast (zero_le_one.trans hone)

theorem defaultTokenCounter_monotone : defaultTokenCounter.Monotone where
  finite := defaultCount_nonneg
  insert := by
    intro a text b hab
    show less (defaultCount (a ++ text ++ b)) (defaultCount (a ++ b)) = false
    by_cases h : a ++ b = []
    · obtain ⟨q, hq, hnonneg⟩ := defaultCount_nonneg (a ++ text ++ b)
      rw [hq, h, defaultCount, if_pos rfl]
      simpa [less] using hnonneg
    · have hlong : a ++ text ++ b ≠ [] := by
        intro hnil
        simp only [List.append_eq_nil_iff] at h hnil
        exact h ⟨hnil.1.1, hnil.2⟩
      rw [defaultCount_of_ne h, defaultCount_of_ne hlong]
      have hquarters : (quarters (codePoints (a ++ b)) : ℚ) ≤ quarters (codePoints (a ++ text ++ b)) := by
        exact_mod_cast quarters_insert hab
      have hceil : ⌈(quarters (codePoints (a ++ b)) : ℚ) / 4⌉ ≤
          ⌈(quarters (codePoints (a ++ text ++ b)) : ℚ) / 4⌉ :=
        Int.ceil_mono (by linarith)
      have hmax := max_le_max (le_refl 1) hceil
      simp only [less, decide_eq_false_iff_not, not_lt]
      exact_mod_cast hmax

end Default

/-! ### The loop -/

section Loop
variable {counter : TokenCounter} {n : ℕ} {s : ContextSelection} {context rendered next : String}
  {m : Memory} {seen : List Memory}

/-- A text that does not stay within the budget. -/
def TokenCounter.Exceeds (counter : TokenCounter) (n : ℕ) (text : String) : Prop :=
  less (ofNat n) (counter.count (units text)) = true

theorem renderContextMemory_ne_empty (m : Memory) : renderContextMemory m ≠ "" := by
  intro h
  have hlength := congrArg String.length h
  simp only [renderContextMemory, String.length_append, String.length_empty] at hlength
  have hbracket : "[".length = 1 := rfl
  omega

theorem appended_ne_empty (h : rendered ≠ "") : appended context rendered ≠ "" := by
  rw [appended]
  split_ifs with hcontext
  · exact h
  · rw [Ne, String.append_eq_empty_iff, not_and]
    exact fun _ => h

theorem checked_of_monotone (hc : counter.Monotone) (text : String) :
    counter.checked text = .ok (counter.count (units text)) := by
  obtain ⟨q, hq, hnonneg⟩ := hc.finite (units text)
  rw [TokenCounter.checked, hq]
  simp [isFinite, less, hnonneg]

/-- What does not fit does not fit into a longer text either. -/
theorem exceeds_insert (hc : counter.Monotone) {a b : String} (text : String) (hab : ¬ Splits (units a) (units b))
    (h : counter.Exceeds n (a ++ b)) : counter.Exceeds n (a ++ text ++ b) := by
  have hinsert := hc.insert (units a) (units text) (units b) hab
  obtain ⟨p, hp, -⟩ := hc.finite (units a ++ units text ++ units b)
  obtain ⟨q, hq, -⟩ := hc.finite (units a ++ units b)
  rw [TokenCounter.Exceeds, Utf16.units_append] at h ⊢
  rw [Utf16.units_append, hp]
  rw [hq] at h
  rw [hp, hq] at hinsert
  simp only [less, ofNat, decide_eq_true_eq, decide_eq_false_iff_not, not_lt] at h hinsert ⊢
  exact h.trans_le hinsert

/-- No pair is split in front of a blank line. -/
theorem not_splits_blank (a : Units) (text : String) : ¬ Splits a (units ("\n\n" ++ text)) := by
  rw [Utf16.units_append]
  refine Utf16.not_splits_of_head fun v hv => ?_
  have hblank : units "\n\n" = [10, 10] := by decide
  rw [hblank] at hv
  obtain rfl : 10 = v := by simpa using hv
  rfl

theorem exceeds_appended (hc : counter.Monotone) {later : String} (hlater : later ≠ "")
    (h : counter.Exceeds n (appended context rendered)) :
    counter.Exceeds n (appended (appended context later) rendered) := by
  rw [appended, if_neg (appended_ne_empty hlater)]
  by_cases hcontext : context = ""
  · -- The later text comes in front.
    rw [appended, if_pos hcontext] at h ⊢
    have hinsert := exceeds_insert hc (a := "") (later ++ "\n\n") Utf16.not_splits_nil
      (by rwa [String.empty_append])
    rwa [String.empty_append] at hinsert
  · -- The later text comes behind the context, with a blank line of its own.
    rw [appended, if_neg hcontext] at h ⊢
    rw [String.append_assoc] at h
    have hinsert := exceeds_insert hc ("\n\n" ++ later) (not_splits_blank _ _) h
    simpa only [String.append_assoc] using hinsert

/-- What the loop keeps of the memories it has seen. -/
structure Fills (counter : TokenCounter) (n : ℕ) (seen : List Memory) (s : ContextSelection) : Prop where
  sublist : s.memories.Sublist seen
  joined : s.context = "\n\n".intercalate (s.memories.map renderContextMemory)
  within : s.context ≠ "" → ¬ counter.Exceeds n s.context
  omitted : ∃ omitted : List Memory, omitted.Sublist seen ∧ (s.memories ++ omitted).Perm seen ∧
    omitted.length = s.omittedCount ∧
    ∀ m ∈ omitted, counter.Exceeds n (appended s.context (renderContextMemory m))

theorem intercalate_ne_empty {kept : List Memory} (h : kept ≠ []) :
    "\n\n".intercalate (kept.map renderContextMemory) ≠ "" := by
  obtain ⟨k, kept, rfl⟩ := List.exists_cons_of_ne_nil h
  cases kept with
  | nil =>
    rw [List.map_singleton, String.intercalate_singleton]
    exact renderContextMemory_ne_empty k
  | cons l kept =>
    rw [List.map_cons, List.map_cons, String.intercalate_cons_cons, Ne, String.append_eq_empty_iff,
      not_and_or, String.append_eq_empty_iff, not_and_or]
    exact .inl (.inl (renderContextMemory_ne_empty k))

theorem appended_intercalate (kept : List Memory) (m : Memory) :
    appended ("\n\n".intercalate (kept.map renderContextMemory)) (renderContextMemory m) =
      "\n\n".intercalate ((kept ++ [m]).map renderContextMemory) := by
  by_cases hkept : kept = []
  · rw [hkept]
    rfl
  · have hne : kept.map renderContextMemory ≠ [] := by simpa using hkept
    rw [appended, if_neg (intercalate_ne_empty hkept), List.map_append,
      String.intercalate_append_of_ne_nil hne (by simp)]
    rfl

theorem fills_skip (h : Fills counter n seen s)
    (hm : counter.Exceeds n (appended s.context (renderContextMemory m))) :
    Fills counter n (seen ++ [m]) { s with omittedCount := s.omittedCount + 1 } := by
  obtain ⟨omitted, hsub, hperm, hlength, hexceeds⟩ := h.omitted
  refine ⟨h.sublist.trans (List.sublist_append_left seen [m]), h.joined, h.within, omitted ++ [m],
    ?_, ?_, ?_, ?_⟩
  · exact hsub.append (List.Sublist.refl [m])
  · rw [← List.append_assoc]
    exact hperm.append_right [m]
  · rw [List.length_append, hlength, List.length_singleton]
  · intro k hk
    rcases List.mem_append.mp hk with hk | hk
    · exact hexceeds k hk
    · rwa [List.mem_singleton.mp hk]

theorem fills_take (hc : counter.Monotone) (h : Fills counter n seen s)
    (hm : ¬ counter.Exceeds n (appended s.context (renderContextMemory m))) :
    Fills counter n (seen ++ [m])
      { s with memories := s.memories ++ [m], context := appended s.context (renderContextMemory m) } := by
  obtain ⟨omitted, hsub, hperm, hlength, hexceeds⟩ := h.omitted
  refine ⟨h.sublist.append (List.Sublist.refl [m]), ?_, fun _ => hm, omitted, ?_, ?_, hlength, ?_⟩
  · rw [h.joined]
    exact appended_intercalate s.memories m
  · exact hsub.trans (List.sublist_append_left seen [m])
  · -- The memory comes before those left out here, and behind them in the ranking.
    rw [List.append_assoc]
    exact (List.perm_append_comm.append_left s.memories).trans
      ((List.append_assoc s.memories omitted [m]) ▸ hperm.append_right [m])
  · exact fun k hk => exceeds_appended hc (renderContextMemory_ne_empty m) (hexceeds k hk)

theorem selectFrom_spec (hc : counter.Monotone) (h : Fills counter n seen s) (rest : List Memory) :
    ∃ t, selectFrom counter (ofNat n) s rest = .ok t ∧ Fills counter n (seen ++ rest) t := by
  induction rest generalizing s seen with
  | nil => exact ⟨s, rfl, by rwa [List.append_nil]⟩
  | cons m rest ih =>
    rw [selectFrom, checked_of_monotone hc]
    dsimp only [bind, Except.bind]
    split_ifs with hm
    · have hskip := ih (fills_skip h hm)
      rwa [List.append_assoc] at hskip
    · have htake := ih (fills_take hc h hm)
      rwa [List.append_assoc] at htake

end Loop

/-! ### The budget is kept and used -/

/-- The selected memories, in the order of the ranking, are what the context is joined of, and it stays
    within the budget; with the rendering of an omitted one it would not. -/
structure Full (counter : TokenCounter) (ranked : List Memory) (n : ℕ) (r : SelectedContext) : Prop where
  sublist : r.memories.Sublist ranked
  joined : r.context = "\n\n".intercalate (r.memories.map renderContextMemory)
  counted : r.tokenCount = if r.context = "" then ofNat 0 else counter.count (units r.context)
  within : less (ofNat n) r.tokenCount = false
  total : r.memories.length + r.omittedCount = ranked.length
  omitted : ∃ omitted : List Memory, omitted.Sublist ranked ∧ (r.memories ++ omitted).Perm ranked ∧
    omitted.length = r.omittedCount ∧
    ∀ m ∈ omitted, less (ofNat n) (counter.count (units (appended r.context (renderContextMemory m)))) = true

theorem isPositiveInteger_ofNat {n : ℕ} (hn : 1 ≤ n) : isPositiveInteger (ofNat n) = true := by
  have hone : (1 : ℚ) ≤ n := by exact_mod_cast hn
  rw [ofNat, isPositiveInteger, Bool.and_eq_true, decide_eq_true_eq]
  exact ⟨rfl, hone⟩

theorem selectContextMemories_full :
    (∀ counter : TokenCounter, counter.Monotone → ∀ (ranked : List Memory) (n : ℕ), 1 ≤ n →
      ∃ r, selectContextMemories ranked (ofNat n) counter = .ok r ∧ Full counter ranked n r) ∧
    defaultTokenCounter.Monotone := by
  refine ⟨?_, defaultTokenCounter_monotone⟩
  intro counter hc ranked n hn
  have hempty : Fills counter n [] {} :=
    ⟨List.Sublist.refl [], rfl, fun h => absurd rfl h, [], List.Sublist.refl [], List.Perm.refl [], rfl,
      fun m hm => absurd hm List.not_mem_nil⟩
  obtain ⟨s, hs, hfills⟩ := selectFrom_spec hc hempty ranked
  rw [List.nil_append] at hfills
  obtain ⟨omitted, hsub, hperm, hlength, hexceeds⟩ := hfills.omitted
  have htotal : s.memories.length + s.omittedCount = ranked.length := by
    rw [← hlength, ← List.length_append]
    exact hperm.length_eq
  rw [selectContextMemories, isPositiveInteger_ofNat hn, hs]
  dsimp only [bind, Except.bind, Bool.not_true]
  by_cases hcontext : s.context = ""
  · refine ⟨{ s with tokenCount := ofNat 0 }, ?_, hfills.sublist, hfills.joined, ?_, ?_, htotal,
      omitted, hsub, hperm, hlength, hexceeds⟩
    · simp [hcontext]
    · rw [if_pos hcontext]
    · simp [less, ofNat]
  · refine ⟨{ s with tokenCount := counter.count (units s.context) }, ?_, hfills.sublist, hfills.joined,
      ?_, ?_, htotal, omitted, hsub, hperm, hlength, hexceeds⟩
    · simp [hcontext, checked_of_monotone hc]
    · rw [if_neg hcontext]
    · exact Bool.not_eq_true _ ▸ hfills.within hcontext

/-- Of three memories the second does not fit, and the third does. -/
def contextExample : List Memory :=
  [("a", "short"), ("b", "a text that is far too long for what is left of the budget by now"),
    ("c", "brief")].map fun (id, content) =>
      { id, type := .fact, content, scope := "global", tags := [], importance := 3, confidence := 1,
        trust := .trusted, createdAt := "", updatedAt := "", version := 1,
        provenance := { sourceType := .manual } }

theorem selectContextMemories_full_skips :
    (∃ r, selectContextMemories contextExample (ofNat 30) = .ok r ∧
      Full defaultTokenCounter contextExample 30 r) ∧
    ((selectContextMemories contextExample (ofNat 30)).toOption.map fun r => r.memories.map (·.id)) =
      some ["a", "c"] :=
  ⟨selectContextMemories_full.1 _ selectContextMemories_full.2 contextExample 30 (by decide),
    by decide +kernel⟩

end Remembra.Service
