import Mathlib.Algebra.GroupWithZero.Nat
import Mathlib.Data.List.Basic

/-! Lists that only ever grow, whose entries are known by their position and changed in place: a
    history of handles, claims or runs. -/

namespace Remembra.Indexed

variable {α : Type*}

/-- Indexing into a list with one entry appended. -/
theorem getElem?_concat {l : List α} {a b : α} {i : ℕ} :
    (l ++ [a])[i]? = some b ↔ l[i]? = some b ∨ i = l.length ∧ a = b := by
  rw [List.getElem?_append]
  split
  · rename_i hi
    simp [Nat.ne_of_lt hi]
  · rename_i hi
    have hnone : l[i]? = none := List.getElem?_eq_none (Nat.le_of_not_lt hi)
    rw [hnone, List.getElem?_singleton]
    split
    · simp; omega
    · simp; omega

/-- Reading back a list with one entry changed in place. -/
theorem getElem?_modify_some {l : List α} {k i : ℕ} {f : α → α} {a : α}
    (hi : (l.modify k f)[i]? = some a) :
    (i ≠ k ∧ l[i]? = some a) ∨ (i = k ∧ ∃ b, l[k]? = some b ∧ a = f b) := by
  rw [List.getElem?_modify] at hi
  obtain ⟨b, hb, rfl⟩ := Option.map_eq_some_iff.mp hi
  rcases eq_or_ne i k with rfl | hik
  · exact .inr ⟨rfl, b, hb, by simp⟩
  · exact .inl ⟨hik, by simpa [hik.symm] using hb⟩

/-- What holds of the other entries, and of the changed one, holds of all. -/
theorem forall_modify {l : List α} {k : ℕ} {f : α → α} {a : α} {P : ℕ → α → Prop}
    (hk : l[k]? = some a) (hother : ∀ i b, i ≠ k → l[i]? = some b → P i b) (hf : P k (f a)) :
    ∀ i b, (l.modify k f)[i]? = some b → P i b := by
  intro i b hi
  rcases getElem?_modify_some hi with ⟨hik, hb⟩ | ⟨rfl, c, hc, rfl⟩
  · exact hother i b hik hb
  · rw [hk, Option.some.injEq] at hc
    exact hc ▸ hf

theorem forall_set {l : List α} {k : ℕ} {a : α} {P : ℕ → α → Prop}
    (hother : ∀ i b, i ≠ k → l[i]? = some b → P i b) (ha : P k a) :
    ∀ i b, (l.set k a)[i]? = some b → P i b := by
  intro i b hi
  rcases eq_or_ne i k with rfl | hik
  · rw [List.getElem?_set_self'] at hi
    obtain ⟨c, -, rfl⟩ := Option.map_eq_some_iff.mp hi
    exact ha
  · rw [List.getElem?_set_ne hik.symm] at hi
    exact hother i b hik hi

theorem forall_concat {l : List α} {a : α} {P : ℕ → α → Prop}
    (hl : ∀ i b, l[i]? = some b → P i b) (ha : P l.length a) :
    ∀ i b, (l ++ [a])[i]? = some b → P i b := by
  intro i b hi
  rcases getElem?_concat.mp hi with hi | ⟨rfl, rfl⟩
  · exact hl i b hi
  · exact ha

/-- Weighing a list with one entry changed in place. -/
theorem sum_map_modify {l : List α} {k : ℕ} {f : α → α} {a : α} (w : α → ℕ)
    (hk : l[k]? = some a) : ((l.modify k f).map w).sum + w a = (l.map w).sum + w (f a) := by
  induction l generalizing k with
  | nil => simp at hk
  | cons b l ih =>
    cases k with
    | zero =>
      obtain rfl : b = a := by simpa using hk
      simp only [List.modify_zero_cons, List.map_cons, List.sum_cons]
      omega
    | succ k =>
      have := ih (k := k) (by simpa using hk)
      simp only [List.modify_succ_cons, List.map_cons, List.sum_cons]
      omega

end Remembra.Indexed
