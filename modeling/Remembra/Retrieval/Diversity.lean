import Remembra.Retrieval.Search

/-! The rounds of the diversity selection: each takes one memory of the queue. Where the memories in front
    of the queue are preferred to those behind them, the rounds go as if the others were not there. -/

namespace Remembra.Retrieval
open Store (Memory JsNum)

section BestPlace
attribute [local simp] bestFrom
variable {value : Memory → JsNum} {xs ys queue : List Memory} {i : ℕ} {best : ℕ × JsNum}

variable (value i best xs ys) in
theorem bestFrom_append :
    bestFrom value i best (xs ++ ys) = bestFrom value (i + xs.length) (bestFrom value i best xs) ys := by
  induction xs generalizing i best with
  | nil => rfl
  | cons x xs ih =>
    rw [List.cons_append, bestFrom, ih, bestFrom, List.length_cons]
    congr 1
    omega

variable (value i best ys) in
/-- The best place is the one from before or one of the list. -/
theorem bestFrom_fst : (bestFrom value i best ys).1 = best.1 ∨
    (i ≤ (bestFrom value i best ys).1 ∧ (bestFrom value i best ys).1 < i + ys.length) := by
  induction ys generalizing i best with
  | nil => exact .inl rfl
  | cons y ys ih =>
    rw [bestFrom, List.length_cons]
    rcases ih (i + 1) (if less best.2 (value y) then (i, value y) else best) with
      hold | ⟨hlow, hhigh⟩
    · rw [hold]
      split_ifs
      · right
        dsimp only
        omega
      · exact .inl rfl
    · right
      omega

theorem bestFrom_of_none_better (h : ∀ y ∈ ys, less best.2 (value y) = false) :
    bestFrom value i best ys = best := by
  induction ys generalizing i with
  | nil => rfl
  | cons y ys ih =>
    have hy : less best.2 (value y) = false := h y List.mem_cons_self
    rw [bestFrom, hy, if_neg Bool.false_ne_true]
    exact ih fun z hz => h z (List.mem_cons_of_mem _ hz)

theorem le_bestFrom_of_better {y : Memory} (hy : y ∈ ys) (h : less best.2 (value y) = true) :
    i ≤ (bestFrom value i best ys).1 := by
  induction ys generalizing i with
  | nil => cases hy
  | cons z ys ih =>
    rw [bestFrom]
    by_cases hz : less best.2 (value z) = true
    · rw [if_pos hz]
      rcases bestFrom_fst value ys (i + 1) (i, value z) with hold | ⟨hlow, -⟩
      · rw [hold]
      · omega
    · rw [if_neg hz]
      rcases List.mem_cons.mp hy with rfl | hy
      · exact absurd h hz
      · have hlater := ih hy (i := i + 1)
        omega

variable (value ys i best) in
/-- The best is the one from before, or the first of the list with a value that is better than that. -/
theorem bestFrom_cases : bestFrom value i best ys = best ∨
    ∃ j y, ys[j]? = some y ∧ bestFrom value i best ys = (i + j, value y) ∧
      less best.2 (value y) = true := by
  induction ys generalizing i best with
  | nil => exact .inl rfl
  | cons y ys ih =>
    rw [bestFrom]
    by_cases hy : less best.2 (value y) = true
    · rw [if_pos hy]
      right
      rcases ih (i + 1) (i, value y) with hold | ⟨j, z, hz, hbest, hless⟩
      · exact ⟨0, y, rfl, hold, hy⟩
      · exact ⟨j + 1, z, hz, by rw [hbest, Nat.add_assoc, Nat.add_comm 1 j], less_trans hy hless⟩
    · rw [if_neg hy]
      rcases ih (i + 1) best with hold | ⟨j, z, hz, hbest, hless⟩
      · exact .inl hold
      · exact .inr ⟨j + 1, z, hz, by rw [hbest, Nat.add_assoc, Nat.add_comm 1 j], hless⟩

/-- What the first of a queue has to be beaten by: a `NaN` is beaten by every number. -/
def worth (a : JsNum) : JsNum := if a = .nan then .negInfinity else a

theorem worth_not_less (a : JsNum) : less (worth a) a = false := by
  cases a <;> simp [worth, less]

theorem bestPlace_cons (x : Memory) (ys : List Memory) :
    bestPlace value (x :: ys) = bestFrom value 1 (0, worth (value x)) ys := by
  rw [bestPlace, bestFrom]
  congr 1
  cases value x <;> simp [worth, less]

variable (value) in
/-- The first of the queue is the best one, or one that is better is. -/
theorem bestPlace_cons_cases (x : Memory) (ys : List Memory) :
    ((∀ y ∈ ys, less (worth (value x)) (value y) = false) ∧ (bestPlace value (x :: ys)).1 = 0) ∨
    ∃ y, (x :: ys)[(bestPlace value (x :: ys)).1]? = some y ∧ less (worth (value x)) (value y) = true := by
  rw [bestPlace_cons]
  rcases bestFrom_cases value ys 1 (0, worth (value x)) with
    hold | ⟨j, y, hy, hbest, hless⟩
  · refine .inl ⟨fun y hy => ?_, by rw [hold]⟩
    by_contra hbetter
    have hlow : 1 ≤ (bestFrom value 1 (0, worth (value x)) ys).1 :=
      le_bestFrom_of_better hy (Bool.eq_true_of_not_eq_false hbetter)
    rw [hold] at hlow
    omega
  · exact .inr ⟨y, by rw [hbest, Nat.add_comm 1 j]; exact hy, hless⟩

variable (value) in
theorem bestPlace_lt (h : queue ≠ []) : (bestPlace value queue).1 < queue.length := by
  have hpos := List.length_pos_of_ne_nil h
  rcases bestFrom_fst value queue 0 (0, .negInfinity) with hold | ⟨-, hhigh⟩
  · rw [bestPlace, hold]
    exact hpos
  · rw [bestPlace]
    omega

/-- No memory of the second list is better than the best of the first. -/
theorem bestPlace_append_of_preferred
    (h : ∀ y ∈ ys, less (bestPlace value xs).2 (value y) = false) :
    bestPlace value (xs ++ ys) = bestPlace value xs := by
  rw [bestPlace, bestFrom_append]
  exact bestFrom_of_none_better h

theorem le_bestPlace_append {y : Memory} (hy : y ∈ ys)
    (h : less (bestPlace value xs).2 (value y) = true) : xs.length ≤ (bestPlace value (xs ++ ys)).1 := by
  have hle : 0 + xs.length ≤ (bestFrom value (0 + xs.length) (bestFrom value 0 (0, .negInfinity) xs)
      ys).1 := le_bestFrom_of_better hy h
  rw [bestPlace, bestFrom_append]
  omega

end BestPlace

/-! ### Rounds -/

section Rounds
variable {P : Platform} {v : List JsNum} {s : List Memory × List Memory} {sel queue xs ys : List Memory}
  {n : ℕ}

theorem mmrRound_nil : mmrRound P v (sel, []) = (sel, []) := by
  simp [mmrRound]

/-- A round moves one memory of the queue to the end of what is selected. -/
theorem mmrRound_cases (h : s.2 ≠ []) : ∃ m, s.2[(bestPlace (mmrValue P v s.1) s.2).1]? = some m ∧
    mmrRound P v s = (s.1 ++ [m], s.2.eraseIdx (bestPlace (mmrValue P v s.1) s.2).1) ∧
    (m :: (mmrRound P v s).2).Perm s.2 := by
  have hlt := bestPlace_lt (mmrValue P v s.1) h
  refine ⟨s.2[(bestPlace (mmrValue P v s.1) s.2).1], List.getElem?_eq_getElem hlt, ?_, ?_⟩
  · rw [mmrRound, List.getElem?_eq_getElem hlt, Option.toList_some]
  · exact List.getElem_cons_eraseIdx_perm hlt

variable (P v) in
/-- The rounds add to what is selected, and what they add they take from the queue. -/
theorem exists_append_rounds (n : ℕ) (s : List Memory × List Memory) : ∃ out,
    ((mmrRound P v)^[n] s).1 = s.1 ++ out ∧ (out ++ ((mmrRound P v)^[n] s).2).Perm s.2 ∧
      out.length = min n s.2.length := by
  induction n generalizing s with
  | zero => exact ⟨[], by simp, List.Perm.refl _, by simp⟩
  | succ n ih =>
    obtain ⟨out, hout, hperm, hlength⟩ := ih (mmrRound P v s)
    rw [Function.iterate_succ_apply]
    by_cases hempty : s.2 = []
    · obtain ⟨sel, queue⟩ := s
      obtain rfl : queue = [] := hempty
      rw [mmrRound_nil] at hout hperm hlength ⊢
      exact ⟨out, hout, hperm, by simpa using hlength⟩
    · obtain ⟨m, -, hround, hmoved⟩ := mmrRound_cases (P := P) (v := v) hempty
      have hcount := hmoved.length_eq
      refine ⟨m :: out, ?_, ?_, ?_⟩
      · rw [hout, hround, List.append_assoc]
        rfl
      · exact (hperm.cons m).trans hmoved
      · rw [List.length_cons] at hcount ⊢
        omega

/-- No memory behind the queue is better than the best of the queue. -/
def Prefers (P : Platform) (v : List JsNum) (s : List Memory × List Memory) (ys : List Memory) : Prop :=
  ∀ y ∈ ys, less (bestPlace (mmrValue P v s.1) s.2).2 (mmrValue P v s.1 y) = false

theorem mmrRound_append (hne : s.2 ≠ []) (h : Prefers P v s ys) :
    mmrRound P v (s.1, s.2 ++ ys) = ((mmrRound P v s).1, (mmrRound P v s).2 ++ ys) := by
  have hlt := bestPlace_lt (mmrValue P v s.1) hne
  simp only [mmrRound, bestPlace_append_of_preferred h]
  rw [List.getElem?_append_left hlt, List.eraseIdx_append_of_lt_length hlt]

/-- Where one of the memories behind the queue is better, one of them is selected. -/
theorem mmrRound_of_not_prefers (h : ¬ Prefers P v s ys) : ∃ y ∈ ys,
    (mmrRound P v (s.1, s.2 ++ ys)).1 = s.1 ++ [y] := by
  simp only [Prefers, not_forall, Bool.not_eq_false] at h
  obtain ⟨z, hz, hbetter⟩ := h
  have hle := le_bestPlace_append hz hbetter
  have hne : (s.1, s.2 ++ ys).2 ≠ [] := List.append_ne_nil_of_right_ne_nil _ (List.ne_nil_of_mem hz)
  obtain ⟨y, hy, hround, -⟩ := mmrRound_cases (P := P) (v := v) hne
  refine ⟨y, ?_, by rw [hround]⟩
  rw [List.getElem?_append_right hle] at hy
  exact List.mem_of_getElem? hy

theorem length_rounds : ((mmrRound P v)^[n] s).2.length = s.2.length - n := by
  obtain ⟨out, -, hperm, hlength⟩ := exists_append_rounds P v n s
  have hcount := hperm.length_eq
  rw [List.length_append] at hcount
  omega

/-- While the queue is preferred, the memories behind it change nothing. -/
theorem rounds_append (hn : n ≤ s.2.length)
    (h : ∀ i < n, Prefers P v ((mmrRound P v)^[i] s) ys) :
    (mmrRound P v)^[n] (s.1, s.2 ++ ys) = (((mmrRound P v)^[n] s).1, ((mmrRound P v)^[n] s).2 ++ ys) := by
  induction n with
  | zero => rfl
  | succ n ih =>
    rw [Function.iterate_succ_apply', ih (by omega) fun i hi => h i (by omega),
      Function.iterate_succ_apply' _ n s]
    refine mmrRound_append ?_ (h n (by omega))
    refine List.ne_nil_of_length_pos ?_
    rw [length_rounds]
    omega

/-- In no round is a later memory of the queue better than the first. -/
def KeepsOrder (P : Platform) (v : List JsNum) (n : ℕ) (queue : List Memory) : Prop :=
  ∀ i < n, ∀ x rest, queue.drop i = x :: rest →
    ∀ y ∈ rest, less (worth (mmrValue P v (queue.take i) x)) (mmrValue P v (queue.take i) y) = false

theorem rounds_of_keepsOrder (h : KeepsOrder P v n queue) (hn : n ≤ queue.length) :
    (mmrRound P v)^[n] ([], queue) = (queue.take n, queue.drop n) := by
  induction n with
  | zero => rfl
  | succ n ih =>
    have hlt : n < queue.length := hn
    have hdrop : queue.drop n = queue[n] :: queue.drop (n + 1) := List.drop_eq_getElem_cons hlt
    rw [Function.iterate_succ_apply', ih (fun i hi => h i (by omega)) (by omega), hdrop]
    rcases bestPlace_cons_cases (mmrValue P v (queue.take n)) queue[n] (queue.drop (n + 1)) with
      ⟨-, hzero⟩ | ⟨y, hy, hbetter⟩
    · rw [mmrRound]
      simp only [hzero, List.getElem?_cons_zero, Option.toList_some, List.eraseIdx_zero, List.tail_cons]
      rw [List.take_append_getElem hlt]
    · rcases List.mem_cons.mp (List.mem_of_getElem? hy) with rfl | hrest
      · rw [worth_not_less] at hbetter
        cases hbetter
      · rw [h n (by omega) _ _ hdrop y hrest] at hbetter
        cases hbetter

/-- The rounds select the front of the queue exactly when they keep its order. -/
theorem rounds_eq_take_iff (hn : n ≤ queue.length) :
    ((mmrRound P v)^[n] ([], queue)).1 = queue.take n ↔ KeepsOrder P v n queue := by
  refine ⟨fun h => ?_, fun h => by rw [rounds_of_keepsOrder h hn]⟩
  intro i
  induction i using Nat.strong_induction_on with
  | _ i ih =>
  intro hi x rest hdrop
  have hbefore : (mmrRound P v)^[i] ([], queue) = (queue.take i, x :: rest) := by
    rw [← hdrop]
    exact rounds_of_keepsOrder (fun k hk => ih k hk (by omega)) (by omega)
  rcases bestPlace_cons_cases (mmrValue P v (queue.take i)) x rest with ⟨hnone, -⟩ | ⟨y, hy, hbetter⟩
  · exact hnone
  · -- another memory than the next one of the ranking is selected, and stays selected
    exfalso
    obtain ⟨out, hout, -⟩ := exists_append_rounds P v (n - (i + 1)) ((mmrRound P v)^[i + 1] ([], queue))
    have hrounds : n = (n - (i + 1)) + (i + 1) := by omega
    rw [hrounds, Function.iterate_add_apply, hout, Function.iterate_succ_apply', hbefore, mmrRound] at h
    have hplace := congrArg (fun l : List Memory => l[i]?) h
    have hlength : (queue.take i).length = i := by
      rw [List.length_take]
      omega
    have hx : queue[i]? = some x := by
      rw [← List.head?_drop, hdrop, List.head?_cons]
    simp only [hy, Option.toList_some, List.append_assoc, List.singleton_append] at hplace
    rw [List.getElem?_append_right (by omega), hlength, Nat.sub_self, List.getElem?_cons_zero,
      List.getElem?_take_of_lt (by omega), hx] at hplace
    obtain rfl := Option.some.inj hplace
    rw [worth_not_less] at hbetter
    cases hbetter

end Rounds

end Remembra.Retrieval
