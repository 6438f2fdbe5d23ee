import Mathlib.Data.List.Infix
import Mathlib.Order.MinMax

/-! The length of a longest common subsequence of two lists. -/

namespace Remembra.Subsequence
variable {α : Type*}

/-- `k` is the length of a common subsequence, and no common subsequence is longer. -/
structure IsLongest (a b : List α) (k : ℕ) : Prop where
  attained : ∃ c : List α, c.Sublist a ∧ c.Sublist b ∧ c.length = k
  bound : ∀ c : List α, c.Sublist a → c.Sublist b → c.length ≤ k

section Longest
variable [DecidableEq α] {a b c : List α} {x y : α}

def longest : List α → List α → ℕ
  | [], _ => 0
  | _ :: _, [] => 0
  | x :: a, y :: b => if x = y then longest a b + 1 else max (longest a (y :: b)) (longest (x :: a) b)
termination_by a b => a.length + b.length

@[simp] theorem longest_nil_left (b : List α) : longest [] b = 0 := by rw [longest]

@[simp] theorem longest_nil_right (a : List α) : longest a [] = 0 := by
  cases a <;> rw [longest]

theorem longest_cons_self (x : α) (a b : List α) : longest (x :: a) (x :: b) = longest a b + 1 := by
  rw [longest, if_pos rfl]

theorem longest_cons_ne (h : x ≠ y) (a b : List α) :
    longest (x :: a) (y :: b) = max (longest a (y :: b)) (longest (x :: a) b) := by
  rw [longest, if_neg h]

theorem longest_attained (a b : List α) :
    ∃ c : List α, c.Sublist a ∧ c.Sublist b ∧ c.length = longest a b := by
  induction a, b using longest.induct with
  | case1 b => exact ⟨[], List.nil_sublist _, List.nil_sublist _, (longest_nil_left b).symm⟩
  | case2 x a => exact ⟨[], List.nil_sublist _, List.nil_sublist _, (longest_nil_right _).symm⟩
  | case3 a y b ih =>
    obtain ⟨c, hca, hcb, hlength⟩ := ih
    refine ⟨y :: c, hca.cons_cons y, hcb.cons_cons y, ?_⟩
    rw [List.length_cons, hlength, longest_cons_self]
  | case4 x a y b hne ihleft ihright =>
    rw [longest_cons_ne hne]
    rcases max_choice (longest a (y :: b)) (longest (x :: a) b) with hmax | hmax
    · obtain ⟨c, hca, hcb, hlength⟩ := ihleft
      exact ⟨c, hca.cons x, hcb, hlength.trans hmax.symm⟩
    · obtain ⟨c, hca, hcb, hlength⟩ := ihright
      exact ⟨c, hca, hcb.cons y, hlength.trans hmax.symm⟩

/-- A common subsequence begins with the common head, or it misses one of two different heads. -/
theorem length_le_longest (ha : c.Sublist a) (hb : c.Sublist b) : c.length ≤ longest a b := by
  induction a, b using longest.induct generalizing c with
  | case1 b => rw [List.sublist_nil.mp ha]; simp
  | case2 x a => rw [List.sublist_nil.mp hb]; simp
  | case3 a y b ih =>
    rw [longest_cons_self]
    cases c with
    | nil => simp
    | cons z c =>
      have hrest := ih (List.Sublist.tail ha) (List.Sublist.tail hb)
      simpa using hrest
  | case4 x a y b hne ihleft ihright =>
    rw [longest_cons_ne hne]
    cases ha with
    | cons _ ha => exact (ihleft ha hb).trans (le_max_left _ _)
    | cons_cons _ ha =>
      cases hb with
      | cons _ hb => exact (ihright (ha.cons_cons x) hb).trans (le_max_right _ _)
      | cons_cons _ hb => exact absurd rfl hne

theorem isLongest_longest (a b : List α) : IsLongest a b (longest a b) :=
  ⟨longest_attained a b, fun _ => length_le_longest⟩

theorem longest_le_left (a b : List α) : longest a b ≤ a.length := by
  obtain ⟨c, hca, -, hlength⟩ := longest_attained a b
  exact hlength ▸ hca.length_le

end Longest

end Remembra.Subsequence
