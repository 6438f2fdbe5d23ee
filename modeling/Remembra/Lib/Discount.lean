import Mathlib.Algebra.Order.Group.Defs
import Mathlib.Tactic.Abel

/-! The discounted gain of a list of hits: each counts for less, the later it stands. Of all lists with no
    more than `n` hits those have the most gain that begin with `n` of them, and it grows with every hit that
    changes places with the miss before it. -/

namespace Remembra.Discount

variable {K : Type*} [AddCommGroup K]

/-- The gain of a list whose first place is the `i`-th. -/
def discounted (g : ℕ → K) : ℕ → List Bool → K
  | _, [] => 0
  | i, hit :: l => (if hit then g i else 0) + discounted g (i + 1) l

@[simp] theorem discounted_hit (g : ℕ → K) (i : ℕ) (l : List Bool) :
    discounted g i (true :: l) = g i + discounted g (i + 1) l := by
  rw [discounted, if_pos rfl]

@[simp] theorem discounted_miss (g : ℕ → K) (i : ℕ) (l : List Bool) :
    discounted g i (false :: l) = discounted g (i + 1) l := by
  rw [discounted, if_neg (by decide), zero_add]

theorem discounted_append (g : ℕ → K) (i : ℕ) (l l' : List Bool) :
    discounted g i (l ++ l') = discounted g i l + discounted g (i + l.length) l' := by
  induction l generalizing i with
  | nil => rw [List.nil_append, discounted, zero_add, List.length_nil, Nat.add_zero]
  | cons hit l ih =>
    have hplace : i + 1 + l.length = i + (hit :: l).length := by
      rw [List.length_cons]
      omega
    rw [List.cons_append, discounted, discounted, ih, hplace, add_assoc]

/-- The gain of `n` hits. -/
def ideal (g : ℕ → K) : ℕ → ℕ → K
  | _, 0 => 0
  | i, n + 1 => g i + ideal g (i + 1) n

theorem ideal_concat (g : ℕ → K) (i n : ℕ) : ideal g i (n + 1) = ideal g i n + g (i + n) := by
  induction n generalizing i with
  | zero => simp [ideal]
  | succ n ih =>
    have hplace : i + 1 + n = i + (n + 1) := by omega
    rw [ideal, ih, ideal, hplace, add_assoc]

/-- Every place counts, and the later it is the less. -/
structure Discounts [LinearOrder K] (g : ℕ → K) : Prop where
  pos : ∀ i, 0 < g i
  anti : StrictAnti g

section
variable [LinearOrder K] [IsOrderedAddMonoid K] {g : ℕ → K} {i n : ℕ} {l : List Bool}

theorem ideal_nonneg (hg : Discounts g) (i n : ℕ) : 0 ≤ ideal g i n := by
  induction n generalizing i with
  | zero => exact le_refl 0
  | succ n ih => exact add_nonneg (hg.pos i).le (ih (i + 1))

theorem ideal_pos (hg : Discounts g) (hn : n ≠ 0) : 0 < ideal g i n := by
  obtain ⟨n, rfl⟩ := Nat.exists_eq_succ_of_ne_zero hn
  exact add_pos_of_pos_of_nonneg (hg.pos i) (ideal_nonneg hg (i + 1) n)

theorem ideal_shift_le (hg : Discounts g) (i n : ℕ) : ideal g (i + 1) n ≤ ideal g i n := by
  induction n generalizing i with
  | zero => exact le_refl 0
  | succ n ih => exact add_le_add (hg.anti (Nat.lt_succ_self i)).le (ih (i + 1))

/-- Hits that begin one place later gain less. -/
theorem ideal_shift_lt (hg : Discounts g) (i n : ℕ) : ideal g (i + 1) (n + 1) < ideal g i (n + 1) :=
  add_lt_add_of_lt_of_le (hg.anti (Nat.lt_succ_self i)) (ideal_shift_le hg (i + 1) n)

theorem discounted_nonneg (hg : Discounts g) (i : ℕ) (l : List Bool) : 0 ≤ discounted g i l := by
  induction l generalizing i with
  | nil => exact le_refl 0
  | cons hit l ih =>
    refine add_nonneg ?_ (ih (i + 1))
    split_ifs
    · exact (hg.pos i).le
    · exact le_refl 0

theorem discounted_le_ideal (hg : Discounts g) (h : l.count true ≤ n) :
    discounted g i l ≤ ideal g i n := by
  induction l generalizing i n with
  | nil => exact ideal_nonneg hg i n
  | cons hit l ih =>
    cases hit with
    | true =>
      rw [List.count_cons_self] at h
      cases n with
      | zero => omega
      | succ n =>
        rw [discounted_hit, ideal]
        exact add_le_add_right (ih (by omega)) (g i)
    | false =>
      rw [List.count_cons_of_ne (by decide)] at h
      rw [discounted_miss]
      exact (ih h).trans (ideal_shift_le hg i n)

/-- The most is gained where the hits stand in front. -/
theorem discounted_eq_ideal_iff (hg : Discounts g) (h : l.count true ≤ n) :
    discounted g i l = ideal g i n ↔ n ≤ l.length ∧ ∀ hit ∈ l.take n, hit = true := by
  induction l generalizing i n with
  | nil =>
    cases n with
    | zero => simp [discounted, ideal]
    | succ n =>
      have hpos := ideal_pos hg (i := i) (Nat.succ_ne_zero n)
      rw [discounted]
      simp [hpos.ne]
  | cons hit l ih =>
    cases hit with
    | true =>
      rw [List.count_cons_self] at h
      cases n with
      | zero => omega
      | succ n =>
        rw [discounted_hit, ideal, add_right_inj, ih (by omega)]
        simp
    | false =>
      rw [List.count_cons_of_ne (by decide)] at h
      cases n with
      | zero =>
        rw [discounted_miss, ideal]
        have hrest := ih (i := i + 1) h
        rw [ideal] at hrest
        simpa using hrest
      | succ n =>
        have hless := (discounted_le_ideal hg h).trans_lt (ideal_shift_lt hg i n)
        rw [discounted_miss]
        simp [hless.ne]

theorem discounted_swap (hg : Discounts g) (i : ℕ) (l l' : List Bool) :
    discounted g i (l ++ false :: true :: l') < discounted g i (l ++ true :: false :: l') := by
  rw [discounted_append, discounted_append, discounted_miss, discounted_hit, discounted_hit, discounted_miss]
  exact add_lt_add_right (add_lt_add_left (hg.anti (Nat.lt_succ_self _)) _) _

end

end Remembra.Discount
