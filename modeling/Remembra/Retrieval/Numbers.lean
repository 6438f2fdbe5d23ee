import Remembra.Store.Record

/-! Arithmetic on JavaScript's numbers, as far as the ranking needs it. A result is the exact one,
    rounded by the platform; an exact platform rounds nothing. What the ranking relies on is that
    rounding keeps the order and leaves integers of a moderate size alone. -/

namespace Remembra.Retrieval
open Store (JsNum)

/-- How a platform computes. -/
structure Floats where
  /-- The number that is next to the exact result. -/
  round : ℚ → JsNum
  sqrt : JsNum → JsNum
  /-- `Math.log` -/
  log : JsNum → JsNum
  /-- `Math.pow(2, x)` -/
  exp2 : JsNum → JsNum

/-! ### Comparisons -/

/-- `a < b` -/
def less : JsNum → JsNum → Bool
  | .nan, _ | _, .nan => false
  | .finite a, .finite b => a < b
  | .negInfinity, b => b ≠ .negInfinity
  | a, .infinity => a ≠ .infinity
  | _, _ => false

theorem less_irrefl (a : JsNum) : less a a = false := by
  cases a <;> simp [less]

theorem less_trans {a b c : JsNum} (hab : less a b = true) (hbc : less b c = true) : less a c = true := by
  cases a <;> cases b <;> cases c <;> simp_all [less]
  exact hab.trans hbc

/-- `a <= b` -/
def atMost (a b : JsNum) : Bool := less a b || (a = b && a ≠ .nan)

/-- `a === b` -/
def same (a b : JsNum) : Bool := a = b && a ≠ .nan

/-- `Math.max(a, b)` -/
def larger (a b : JsNum) : JsNum :=
  if a = .nan ∨ b = .nan then .nan else if less a b then b else a

/-- `Math.min(a, b)` -/
def smaller (a b : JsNum) : JsNum :=
  if a = .nan ∨ b = .nan then .nan else if less b a then b else a

/-- `-a` -/
def opposite : JsNum → JsNum
  | .finite q => .finite (-q)
  | .nan => .nan
  | .infinity => .negInfinity
  | .negInfinity => .infinity

/-- `Number.isFinite(a)` -/
def isFinite : JsNum → Bool
  | .finite _ => true
  | _ => false

def ofNat (n : ℕ) : JsNum := .finite n
def ofInt (n : ℤ) : JsNum := .finite n

namespace Floats
variable (F : Floats)

/-- A number as it is written in the source. -/
def literal (q : ℚ) : JsNum := F.round q

def add : JsNum → JsNum → JsNum
  | .nan, _ | _, .nan => .nan
  | .finite a, .finite b => F.round (a + b)
  | .infinity, .negInfinity | .negInfinity, .infinity => .nan
  | .infinity, _ | _, .infinity => .infinity
  | _, _ => .negInfinity

def sub (a b : JsNum) : JsNum := F.add a (opposite b)

/-- An infinity, with the sign of a product. -/
def signed (negative : Bool) : JsNum := if negative then .negInfinity else .infinity

def mul (a b : JsNum) : JsNum :=
  match a, b with
  | .nan, _ | _, .nan => .nan
  | .finite a, .finite b => F.round (a * b)
  | a, b =>
    if a = .finite 0 || b = .finite 0 then .nan
    else signed (less a (.finite 0) != less b (.finite 0))

def div (a b : JsNum) : JsNum :=
  match a, b with
  | .nan, _ | _, .nan => .nan
  | .finite a, .finite b =>
    if b ≠ 0 then F.round (a / b)
    else if a = 0 then .nan
    else signed (a < 0)
  | .finite _, _ => .finite 0
  | a, .finite b => signed (less a (.finite 0) != decide (b < 0))
  | _, _ => .nan

/-- The sign of a difference, as the order of a comparator; a `NaN` decides nothing. -/
def order (a b : JsNum) : Ordering :=
  let difference := F.sub a b
  if less difference (.finite 0) then .lt else if less (.finite 0) difference then .gt else .eq

/-- A platform that rounds nothing. -/
structure Exact : Prop where
  round : ∀ q, F.round q = .finite q

/-- What the ranking relies on. -/
structure Ieee : Prop where
  /-- Integers of a moderate size are not rounded. -/
  integers : ∀ n : ℤ, |n| ≤ 2 ^ 53 → F.round n = .finite n
  mono : ∀ p q, p ≤ q → atMost (F.round p) (F.round q) = true
  /-- A power of two with an exponent that is not positive is at most one. -/
  exp2 : ∀ x, atMost x (.finite 0) = true → ∃ q, F.exp2 x = .finite q ∧ 0 ≤ q ∧ q ≤ 1

end Floats

/-! ### Bounds -/

/-- A finite number between two integers. -/
def Within (m n : ℤ) (x : JsNum) : Prop := ∃ q : ℚ, x = .finite q ∧ m ≤ q ∧ q ≤ n

section Within
variable {F : Floats} {x y : JsNum} {a b c d : ℤ}

theorem Within.mono (h : Within a b x) (hlow : c ≤ a) (hhigh : b ≤ d) : Within c d x := by
  obtain ⟨q, rfl, ha, hb⟩ := h
  have hca : (c : ℚ) ≤ a := by exact_mod_cast hlow
  have hbd : (b : ℚ) ≤ d := by exact_mod_cast hhigh
  exact ⟨q, rfl, hca.trans ha, hb.trans hbd⟩

theorem within_ofInt (n : ℤ) : Within n n (ofInt n) := ⟨n, rfl, le_refl _, le_refl _⟩

/-- What lies between two integers is rounded to what lies between them. -/
theorem within_round (hF : F.Ieee) {q : ℚ} (ha : |a| ≤ 2 ^ 53) (hb : |b| ≤ 2 ^ 53) (hlow : a ≤ q)
    (hhigh : q ≤ b) : Within a b (F.round q) := by
  have hfrom := hF.mono a q hlow
  have hto := hF.mono q b hhigh
  rw [hF.integers a ha] at hfrom
  rw [hF.integers b hb] at hto
  cases hq : F.round q with
  | finite r =>
    rw [hq] at hfrom hto
    simp only [atMost, less, Bool.or_eq_true, Bool.and_eq_true, decide_eq_true_eq,
      JsNum.finite.injEq] at hfrom hto
    refine ⟨r, rfl, ?_, ?_⟩
    · rcases hfrom with h | ⟨h, -⟩
      · exact h.le
      · exact h.le
    · rcases hto with h | ⟨h, -⟩
      · exact h.le
      · exact h.le
  | nan =>
    rw [hq] at hto
    simp [atMost, less] at hto
  | infinity =>
    rw [hq] at hto
    simp [atMost, less] at hto
  | negInfinity =>
    rw [hq] at hfrom
    simp [atMost, less] at hfrom

theorem Within.add (hF : F.Ieee) (hx : Within a b x) (hy : Within c d y) (hlow : |a + c| ≤ 2 ^ 53)
    (hhigh : |b + d| ≤ 2 ^ 53) : Within (a + c) (b + d) (F.add x y) := by
  obtain ⟨p, rfl, hap, hpb⟩ := hx
  obtain ⟨q, rfl, hcq, hqd⟩ := hy
  refine within_round hF hlow hhigh ?_ ?_
  · push_cast
    linarith
  · push_cast
    linarith

theorem Within.mul (hF : F.Ieee) (hx : Within a b x) (hy : Within c d y) (ha : 0 ≤ a) (hc : 0 ≤ c)
    (hlow : |a * c| ≤ 2 ^ 53) (hhigh : |b * d| ≤ 2 ^ 53) :
    Within (a * c) (b * d) (F.mul x y) := by
  obtain ⟨p, rfl, hap, hpb⟩ := hx
  obtain ⟨q, rfl, hcq, hqd⟩ := hy
  have ha' : (0 : ℚ) ≤ a := by exact_mod_cast ha
  have hc' : (0 : ℚ) ≤ c := by exact_mod_cast hc
  refine within_round hF hlow hhigh ?_ ?_
  · push_cast
    exact mul_le_mul hap hcq hc' (ha'.trans hap)
  · push_cast
    exact mul_le_mul hpb hqd (hc'.trans hcq) (ha'.trans (hap.trans hpb))

theorem Within.opposite (hx : Within a b x) : Within (-b) (-a) (opposite x) := by
  obtain ⟨q, rfl, haq, hqb⟩ := hx
  refine ⟨-q, rfl, ?_, ?_⟩
  · push_cast
    linarith
  · push_cast
    linarith

theorem Within.sub (hF : F.Ieee) (hx : Within a b x) (hy : Within c d y) (hlow : |a - d| ≤ 2 ^ 53)
    (hhigh : |b - c| ≤ 2 ^ 53) : Within (a - d) (b - c) (F.sub x y) := by
  have hadd := hx.add hF hy.opposite (by rwa [← sub_eq_add_neg]) (by rwa [← sub_eq_add_neg])
  rwa [← sub_eq_add_neg, ← sub_eq_add_neg] at hadd

/-- A number that lies below another one comes first. -/
theorem order_eq_lt (hF : F.Ieee) (hx : Within a b x) (hy : Within c d y) (hlt : b < c)
    (hlow : |a - d| ≤ 2 ^ 53) (hhigh : |b - c| ≤ 2 ^ 53) : F.order x y = .lt := by
  obtain ⟨r, hr, -, hneg⟩ := hx.sub hF hy hlow hhigh
  have hgap : (b : ℚ) < c := by exact_mod_cast hlt
  have hless : r < 0 := by
    push_cast at hneg
    linarith
  simp [Floats.order, hr, less, hless]

/-- A number that lies above another one comes after it. -/
theorem order_eq_gt (hF : F.Ieee) (hx : Within a b x) (hy : Within c d y) (hlt : d < a)
    (hlow : |a - d| ≤ 2 ^ 53) (hhigh : |b - c| ≤ 2 ^ 53) : F.order x y = .gt := by
  obtain ⟨r, hr, hpos, -⟩ := hx.sub hF hy hlow hhigh
  have hgap : (d : ℚ) < a := by exact_mod_cast hlt
  have hless : 0 < r := by
    push_cast at hpos
    linarith
  have hnot : ¬ r < 0 := not_lt.mpr hless.le
  simp [Floats.order, hr, less, hless, hnot]

end Within

end Remembra.Retrieval
