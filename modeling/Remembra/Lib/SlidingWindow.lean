import Mathlib.Algebra.Order.Group.Defs
import Mathlib.Tactic.Common

/-! Histories of events in time, cut by a sliding window of width `w`. A counter that admits an event
    only while fewer than `limit` are younger than `w` never has more than `limit` of them in any
    half-open interval of that width (`Within.concat`); and what has grown old at one instant is old
    at every later one, so a counter may forget it (`live_live`, `dropWhile_eq_live`). Time is any
    ordered group. -/

namespace Remembra.SlidingWindow

variable {T : Type*} [AddCommGroup T] [LinearOrder T]

/-- The events younger than `w` at `t`. -/
def live (w t : T) (h : List T) : List T := h.filter fun x => t - x < w

/-- The events in the half-open interval of width `w` that ends at `t`. -/
def window (w t : T) (h : List T) : List T := h.filter fun x => t - w < x ∧ x ≤ t

/-- No interval of width `w` holds more than `limit` events. -/
def Within (limit : ℕ) (w : T) (h : List T) : Prop := ∀ t, (window w t h).length ≤ limit

variable {limit : ℕ} {w t t' : T} {h h' : List T}

@[simp] theorem live_nil : live w t [] = [] := rfl

theorem live_append : live w t (h ++ h') = live w t h ++ live w t h' := List.filter_append ..

theorem window_append : window w t (h ++ h') = window w t h ++ window w t h' :=
  List.filter_append ..

theorem within_nil : Within limit w [] := fun _ => Nat.zero_le _

variable [IsOrderedAddMonoid T]

/-- What is young later is young now. -/
theorem live_live (ht : t ≤ t') : live w t' (live w t h) = live w t' h := by
  rw [live, live, List.filter_filter]
  refine List.filter_congr fun x _ => ?_
  rw [Bool.and_eq_left_iff_imp, decide_eq_true_eq, decide_eq_true_eq]
  exact fun hx => lt_of_le_of_lt (sub_le_sub_right ht x) hx

/-- In a history in order, the old events come first. -/
theorem dropWhile_eq_live (hs : h.Pairwise (· ≤ ·)) :
    h.dropWhile (fun x => w ≤ t - x) = live w t h := by
  induction h with
  | nil => rfl
  | cons x h ih =>
    obtain ⟨hx, hh⟩ := List.pairwise_cons.mp hs
    by_cases hold : w ≤ t - x
    · rw [List.dropWhile_cons_of_pos (by simpa using hold), ih hh, live, live,
        List.filter_cons_of_neg (by simpa using hold)]
    · have hyoung : ∀ y ∈ x :: h, decide (t - y < w) = true := by
        intro y hy
        rw [decide_eq_true_eq]
        rcases List.mem_cons.mp hy with rfl | hy
        · exact lt_of_not_ge hold
        · exact lt_of_le_of_lt (sub_le_sub_left (hx y hy) t) (lt_of_not_ge hold)
      rw [List.dropWhile_cons_of_neg (by simpa using hold), live, List.filter_eq_self.mpr hyoung]

/-- When the newest event of a history in order is old, all are. -/
theorem live_eq_nil_of_newest (hs : h.Pairwise (· ≤ ·)) {newest : T}
    (hn : h.getLast? = some newest) (hold : w ≤ t - newest) : live w t h = [] := by
  obtain ⟨front, rfl⟩ := List.getLast?_eq_some_iff.mp hn
  refine List.filter_eq_nil_iff.mpr fun x hx => ?_
  rw [decide_eq_true_eq, not_lt]
  rcases List.mem_append.mp hx with hx | hx
  · have hle : x ≤ newest := (List.pairwise_append.mp hs).2.2 x hx newest (by simp)
    exact le_trans hold (sub_le_sub_left hle t)
  · rw [List.mem_singleton.mp hx]
    exact hold

theorem live_length_le (ht : t ≤ t') : (live w t' h).length ≤ (live w t h).length := by
  rw [← live_live (h := h) ht]
  exact List.length_filter_le ..

/-- An event admitted while fewer than `limit` are young keeps every interval within the limit. -/
theorem Within.concat (hw : Within limit w h) {now : T} (hroom : (live w now h).length < limit) :
    Within limit w (h ++ [now]) := by
  intro t
  rw [window_append, List.length_append]
  by_cases hnow : now ≤ t
  · -- what the interval holds of the past was young at `now`
    have hsub : (window w t h).Sublist (live w now h) := by
      have heq : window w t h = (live w now h).filter fun x => t - w < x ∧ x ≤ t := by
        rw [live, List.filter_filter, window]
        refine List.filter_congr fun x _ => ?_
        rw [eq_comm, Bool.and_eq_left_iff_imp, decide_eq_true_eq, decide_eq_true_eq]
        rintro ⟨hx, -⟩
        exact lt_of_le_of_lt (sub_le_sub_right hnow x) (sub_lt_comm.mp hx)
      rw [heq]
      exact List.filter_sublist
    have hle := hsub.length_le
    have hone : (window w t [now]).length ≤ 1 := List.length_filter_le ..
    omega
  · have hnone : window w t [now] = [] := by
      rw [window, List.filter_cons_of_neg (by simp [hnow]), List.filter_nil]
    rw [hnone, List.length_nil]
    exact hw t

end Remembra.SlidingWindow
