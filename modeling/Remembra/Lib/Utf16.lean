import Mathlib.Data.List.Basic

/-! Texts as JavaScript has them: lists of UTF-16 code units, in which a surrogate may stand alone. They are
    read code point by code point. What two texts are read to one after the other is what they are read to
    together, unless a pair of surrogates stands across their boundary. -/

namespace Remembra.Utf16

abbrev Units := List UInt16

def isHigh (u : UInt16) : Bool := 0xd800 ≤ u.toNat && u.toNat < 0xdc00
def isLow (u : UInt16) : Bool := 0xdc00 ≤ u.toNat && u.toNat < 0xe000

/-- The code point of two surrogates. -/
def pair (u v : UInt16) : ℕ := 0x10000 + (u.toNat - 0xd800) * 0x400 + (v.toNat - 0xdc00)

/-- `for (const char of text)`, each with its `codePointAt(0)`. -/
def codePoints : Units → List ℕ
  | [] => []
  | [u] => [u.toNat]
  | u :: v :: l => if isHigh u && isLow v then pair u v :: codePoints l else u.toNat :: codePoints (v :: l)

/-- The units of a character. -/
def unitsOf (c : Char) : Units :=
  if c.toNat < 0x10000 then [.ofNat c.toNat]
  else [.ofNat (0xd800 + (c.toNat - 0x10000) / 0x400), .ofNat (0xdc00 + (c.toNat - 0x10000) % 0x400)]

/-- A text without lone surrogates. -/
def units (s : String) : Units := s.toList.flatMap unitsOf

/-- The first text ends with the one half of a pair and the second begins with the other. -/
def Splits (a b : Units) : Prop := ∃ u ∈ a.getLast?, ∃ v ∈ b.head?, isHigh u = true ∧ isLow v = true

section
variable {a b l : Units} {u v : UInt16}

theorem not_low_of_high (h : isHigh u = true) : isLow u = false := by
  simp only [isHigh, isLow, Bool.and_eq_true, decide_eq_true_eq, Bool.and_eq_false_iff,
    decide_eq_false_iff_not] at h ⊢
  omega

theorem not_high_of_low (h : isLow u = true) : isHigh u = false := by
  rw [← Bool.not_eq_true]
  intro hhigh
  rw [not_low_of_high hhigh] at h
  cases h

theorem not_splits_nil : ¬ Splits [] b := by
  rintro ⟨u, hu, -⟩
  cases hu

theorem not_splits_of_head (h : ∀ v ∈ b.head?, isLow v = false) : ¬ Splits a b := by
  rintro ⟨u, -, v, hv, -, hlow⟩
  rw [h v hv] at hlow
  cases hlow

theorem splits_cons (hl : l ≠ []) : Splits (u :: l) b ↔ Splits l b := by
  obtain ⟨v, l, rfl⟩ := List.exists_cons_of_ne_nil hl
  rw [Splits, Splits, List.getLast?_cons_cons]

theorem codePoints_pair (hu : isHigh u = true) (hv : isLow v = true) :
    codePoints (u :: v :: l) = pair u v :: codePoints l := by
  rw [codePoints, hu, hv]
  rfl

theorem codePoints_alone (h : ∀ v ∈ l.head?, (isHigh u && isLow v) = false) :
    codePoints (u :: l) = u.toNat :: codePoints l := by
  cases l with
  | nil => rfl
  | cons v l =>
    rw [codePoints, h v rfl]
    rfl

theorem codePoints_append (h : ¬ Splits a b) : codePoints (a ++ b) = codePoints a ++ codePoints b := by
  fun_induction codePoints a with
  | case1 => rfl
  | case2 u =>
    refine codePoints_alone fun v hv => ?_
    rw [Bool.and_eq_false_iff, ← Bool.not_eq_true, ← Bool.not_eq_true, ← not_and_or]
    rintro ⟨hu, hlow⟩
    exact h ⟨u, rfl, v, hv, hu, hlow⟩
  | case3 u v l hpair ih =>
    rw [Bool.and_eq_true] at hpair
    have hrest : ¬ Splits l b := by
      cases l with
      | nil => exact not_splits_nil
      | cons w l => rwa [splits_cons (by simp), splits_cons (by simp)] at h
    rw [List.cons_append, List.cons_append, codePoints_pair hpair.1 hpair.2, ih hrest, List.cons_append]
  | case4 u v l hpair ih =>
    rw [splits_cons (by simp)] at h
    rw [List.cons_append, codePoints_alone (by simpa using hpair), ih h, List.cons_append]

/-- A first half begins a code point. -/
theorem not_splits_high (hu : isHigh u = true) : ¬ Splits a (u :: b) := by
  refine not_splits_of_head fun w hw => ?_
  obtain rfl : u = w := by simpa using hw
  exact not_low_of_high hu

/-- Across a boundary that splits a pair, the two halves are read as one code point, where they were two. -/
theorem codePoints_of_splits (h : Splits a b) : ∃ u v before behind, isHigh u = true ∧ isLow v = true ∧
    codePoints a = before ++ [u.toNat] ∧ codePoints b = v.toNat :: behind ∧
    codePoints (a ++ b) = before ++ pair u v :: behind := by
  obtain ⟨u, hu, v, hv, hhigh, hlow⟩ := h
  obtain ⟨a, rfl⟩ := List.getLast?_eq_some_iff.mp hu
  obtain ⟨b, rfl⟩ := List.head?_eq_some_iff.mp hv
  refine ⟨u, v, codePoints a, codePoints b, hhigh, hlow, ?_, ?_, ?_⟩
  · rw [codePoints_append (not_splits_high hhigh)]
    rfl
  · exact codePoints_alone fun w _ => by rw [not_high_of_low hlow, Bool.false_and]
  · rw [List.append_assoc, List.singleton_append, codePoints_append (not_splits_high hhigh),
      codePoints_pair hhigh hlow]

theorem codePoints_ne_nil (h : a ≠ []) : codePoints a ≠ [] := by
  fun_cases codePoints a with
  | case1 => exact absurd rfl h
  | _ => exact List.cons_ne_nil _ _

theorem units_append (s t : String) : units (s ++ t) = units s ++ units t := by
  rw [units, String.toList_append, List.flatMap_append]
  rfl

end

end Remembra.Utf16
