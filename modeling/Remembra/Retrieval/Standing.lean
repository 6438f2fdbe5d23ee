import Remembra.Retrieval.Diversity
import Remembra.Retrieval.Duplicates
import Remembra.Retrieval.Ranking
import Remembra.Retrieval.Superseded

/-! Standing instructions in the answer of the default policy. The points of the gate put them in front of
    the ranking. The diversity selection looks at the embeddings alone, and takes another memory where
    that is better than each standing instruction that is left. -/

namespace Remembra.Retrieval
open Store (Memory JsNum)
open Sorting (Front)

/-- A role or an instruction that is trusted. -/
def Standing (m : Memory) : Prop := isStandingInstruction m true = true

instance : DecidablePred Standing := fun m => inferInstanceAs (Decidable (isStandingInstruction m true = true))

section Standing
variable (P : Platform) (now : ℤ) (memories : List Memory) (q : SearchQuery)
  (queryVec : Option (List JsNum))

/-- A standing instruction of the pool that is eligible for the query's scope, not superseded and no
    suppressed duplicate. -/
def Owed (m : Memory) : Prop :=
  m ∈ memories ∧ Standing m ∧ applyScopeFilter m q.scope ≠ 0 ∧
    (q.includeSuperseded = true ∨ isSuperseded memories m = false) ∧
    m.id ∉ (deduped P now memories q queryVec {}).removed.map (·.id)

/-- Where the answer has another memory, each standing instruction that is owed is before it, or the limit
    is filled by standing instructions. -/
def StandingAbsolute (answer : List Memory) : Prop :=
  ∀ x ∈ answer, ¬ Standing x → ∀ m, Owed P now memories q queryVec m →
    [m, x].Sublist answer ∨ effectiveLimit q ≤ answer.countP (Standing ·)

/-- What the default policy selects. -/
def selected : List Memory :=
  selection P q queryVec {} (deduped P now memories q queryVec {}).memories

/-- What the selection is made from. -/
def selectable : List Memory :=
  (deduped P now memories q queryVec {}).memories.take
    (max (max (effectiveLimit q * 10) 100) (effectiveLimit q))

def standingOnes : List Memory := (selectable P now memories q queryVec).filter (Standing ·)

def otherOnes : List Memory := (selectable P now memories q queryVec).filter (¬ Standing ·)

/-- Where there is a diversity selection: in no round of one over the standing instructions alone is
    another memory better than the best that is left. -/
def StandingPreferred : Prop :=
  ∀ v, usableVector queryVec = some v → effectiveLimit q < (selectable P now memories q queryVec).length →
    ∀ i < min (effectiveLimit q) (standingOnes P now memories q queryVec).length,
      Prefers P v ((mmrRound P v)^[i] ([], standingOnes P now memories q queryVec))
        (otherOnes P now memories q queryVec)

/-- The seeds leave out no standing instruction that is owed. -/
def SeedsKeepStanding : Prop :=
  ∀ m, Owed P now memories q queryVec m → IsRanked P memories q queryVec {} m

variable {P now memories q queryVec} {m x : Memory} {ranked : List Memory} {v : List JsNum}

/-! ### The selection -/

theorem selection_of_vector (hbudget : q.budget = none) (hv : usableVector queryVec = some v)
    (hlt : effectiveLimit q < (selectable P now memories q queryVec).length) :
    selected P now memories q queryVec =
      ((mmrRound P v)^[effectiveLimit q] ([], selectable P now memories q queryVec)).1 := by
  have hne : v ≠ [] := by
    have hfilter := Option.filter_eq_some_iff.mp hv
    simpa using hfilter.2
  rw [selected, selection, hv, hbudget]
  by_cases hone : 1 < (deduped P now memories q queryVec {}).memories.length
  · simp only [Option.filter_some, hone, decide_true, Bool.and_self, if_true, Option.isSome_none,
      Bool.false_eq_true, if_false, mmrDedup]
    rw [selectable] at hlt ⊢
    simp only [Nat.not_le.mpr hlt, hne, decide_false, Bool.or_self, Bool.false_eq_true, if_false]
  · have hzero : effectiveLimit q = 0 := by
      rw [selectable, List.length_take] at hlt
      omega
    simp [hone, hzero]

theorem selection_of_not (hbudget : q.budget = none)
    (hnot : usableVector queryVec = none ∨
      (selectable P now memories q queryVec).length ≤ effectiveLimit q) :
    selected P now memories q queryVec =
      (selectable P now memories q queryVec).take (effectiveLimit q) := by
  have htake : (selectable P now memories q queryVec).take (effectiveLimit q) =
      (deduped P now memories q queryVec {}).memories.take (effectiveLimit q) := by
    rw [selectable, List.take_take, min_eq_left (le_max_right _ _)]
  rw [selected, selection, hbudget]
  cases hv : usableVector queryVec with
  | none => simp [htake]
  | some v =>
    have hlength := hnot.resolve_left (by simp [hv])
    by_cases hone : 1 < (deduped P now memories q queryVec {}).memories.length
    · simp only [Option.filter_some, hone, decide_true, Bool.and_self, if_true, Option.isSome_none,
        Bool.false_eq_true, if_false, mmrDedup]
      rw [selectable] at hlength ⊢
      simp only [hlength, decide_true, Bool.true_or, if_true]
    · simp [hone, htake]

/-! ### The ranking -/

theorem deduped_sublist : (deduped P now memories q queryVec {}).memories.Sublist
    (currentRanking P now memories q queryVec {}) := dedupeResults_memories_sublist

theorem deduped_perm : ((deduped P now memories q queryVec {}).memories.map (·.id) ++
    (deduped P now memories q queryVec {}).removed.map (·.id)).Perm
      ((currentRanking P now memories q queryVec {}).map (·.id)) := dedupeResults_perm

/-- Each id of the pool is once among those that are kept and those that are removed. -/
theorem nodup_deduped (h : WellFormed memories) :
    ((deduped P now memories q queryVec {}).memories.map (·.id) ++
      (deduped P now memories q queryVec {}).removed.map (·.id)).Nodup := by
  have hsubperm : (fullRanking P now memories q queryVec {}).Subperm memories := fullRanking_subperm
  obtain ⟨l, hperm, hsub⟩ := hsubperm
  have hfull : ((fullRanking P now memories q queryVec {}).map (·.id)).Nodup :=
    (hperm.map (·.id)).nodup_iff.mp (h.ids.sublist (hsub.map _))
  exact deduped_perm.nodup_iff.mpr (hfull.sublist (currentRanking_sublist.map _))

theorem mem_memories_of_mem_deduped (hm : m ∈ (deduped P now memories q queryVec {}).memories) :
    m ∈ memories :=
  (mem_currentRanking.mp (deduped_sublist.subset hm)).1.1

theorem nodup_selectable (h : WellFormed memories) : (selectable P now memories q queryVec).Nodup :=
  ((List.nodup_append.mp (nodup_deduped h)).1.of_map _).sublist (List.take_sublist _ _)

theorem front_deduped (hP : P.floats.Ieee) (h : WellFormed memories) :
    Front Standing (deduped P now memories q queryVec {}).memories :=
  (Front.sublist (front_fullRanking hP h) currentRanking_sublist).sublist
    deduped_sublist

theorem selectable_eq (hP : P.floats.Ieee) (h : WellFormed memories) :
    selectable P now memories q queryVec =
      standingOnes P now memories q queryVec ++ otherOnes P now memories q queryVec :=
  ((front_deduped hP h).sublist (List.take_sublist _ _)).eq_append

/-- The standing instructions are among the first, if another memory is. -/
theorem mem_selectable_of_standing (hP : P.floats.Ieee) (h : WellFormed memories)
    (hx : x ∈ selectable P now memories q queryVec) (hother : ¬ Standing x)
    (hm : m ∈ (deduped P now memories q queryVec {}).memories) (hstanding : Standing m) :
    m ∈ selectable P now memories q queryVec := by
  have hfront : Front Standing (deduped P now memories q queryVec {}).memories := front_deduped hP h
  rw [← List.take_append_drop (max (max (effectiveLimit q * 10) 100) (effectiveLimit q))
    (deduped P now memories q queryVec {}).memories] at hfront hm
  rcases List.mem_append.mp hm with hm | hm
  · exact hm
  · exact absurd ((List.pairwise_append.mp hfront).2.2 x hx m hm hstanding) hother

/-- What is owed and ranked is in the ranking that the selection is made from. -/
theorem mem_deduped_of_owed (h : WellFormed memories) (hm : Owed P now memories q queryVec m)
    (hranked : IsRanked P memories q queryVec {} m) :
    m ∈ (deduped P now memories q queryVec {}).memories := by
  obtain ⟨hpool, -, -, hcurrent, hremoved⟩ := hm
  have hleft : m ∈ currentRanking P now memories q queryVec {} := by
    refine mem_currentRanking.mpr ⟨hranked, hcurrent.imp_right fun hnot => ?_⟩
    rw [← Option.not_isSome_iff_eq_none, ← isSuperseded_iff, hnot]
    exact Bool.false_ne_true
  have hid : m.id ∈ (deduped P now memories q queryVec {}).memories.map (·.id) ++
      (deduped P now memories q queryVec {}).removed.map (·.id) :=
    deduped_perm.mem_iff.mpr (List.mem_map_of_mem hleft)
  rcases List.mem_append.mp hid with hkept | hgone
  · obtain ⟨n, hn, hnm⟩ := List.mem_map.mp hkept
    have hsame : n = m := List.inj_on_of_nodup_map h.ids (mem_memories_of_mem_deduped hn) hpool hnm
    exact hsame ▸ hn
  · exact absurd hgone hremoved

theorem owed_of_mem_standingOnes (h : WellFormed memories)
    (hm : m ∈ standingOnes P now memories q queryVec) :
    Owed P now memories q queryVec m ∧ IsRanked P memories q queryVec {} m := by
  obtain ⟨hselectable, hstanding⟩ := List.mem_filter.mp hm
  have hkept := List.mem_of_mem_take hselectable
  obtain ⟨hranked, hcurrent⟩ := mem_currentRanking.mp (deduped_sublist.subset hkept)
  refine ⟨⟨hranked.1, of_decide_eq_true hstanding, ?_, hcurrent.imp_right fun hnone => ?_, ?_⟩, hranked⟩
  · have hgates := hranked.2.1
    rw [passesGates, Bool.and_eq_true, decide_eq_true_eq] at hgates
    exact hgates.1
  · rw [← Bool.not_eq_true, isSuperseded_iff, hnone]
    exact Bool.false_ne_true
  · intro hgone
    exact (List.nodup_append.mp (nodup_deduped h)).2.2 m.id (List.mem_map_of_mem hkept) m.id hgone rfl

/-! ### The answer -/

/-- Standing instructions, and then others only where no standing instruction is left. -/
def Led (P : Platform) (now : ℤ) (memories : List Memory) (q : SearchQuery)
    (queryVec : Option (List JsNum)) (answer : List Memory) : Prop :=
  ∃ front back, answer = front ++ back ∧ (∀ m ∈ front, m ∈ standingOnes P now memories q queryVec) ∧
    (∀ m ∈ back, m ∈ otherOnes P now memories q queryVec) ∧
    (back = [] ∨ ∀ m ∈ standingOnes P now memories q queryVec, m ∈ front)

theorem led_take (hP : P.floats.Ieee) (h : WellFormed memories) (n : ℕ) :
    Led P now memories q queryVec ((selectable P now memories q queryVec).take n) := by
  rw [selectable_eq hP h, List.take_append]
  refine ⟨_, _, rfl, fun m hm => List.mem_of_mem_take hm, fun m hm => List.mem_of_mem_take hm, ?_⟩
  by_cases hn : n ≤ (standingOnes P now memories q queryVec).length
  · left
    rw [Nat.sub_eq_zero_of_le hn, List.take_zero]
  · right
    intro m hm
    rwa [List.take_of_length_le (by omega)]

/-- Rounds that prefer the standing instructions select these first. -/
theorem led_rounds (hP : P.floats.Ieee) (h : WellFormed memories) (n : ℕ)
    (hprefer : ∀ i < min n (standingOnes P now memories q queryVec).length,
      Prefers P v ((mmrRound P v)^[i] ([], standingOnes P now memories q queryVec))
        (otherOnes P now memories q queryVec)) :
    Led P now memories q queryVec ((mmrRound P v)^[n] ([], selectable P now memories q queryVec)).1 := by
  have hle : min n (standingOnes P now memories q queryVec).length ≤
      (standingOnes P now memories q queryVec).length := min_le_right _ _
  have hrounds := rounds_append (s := ([], standingOnes P now memories q queryVec)) hle hprefer
  obtain ⟨out, hout, hperm, -⟩ := exists_append_rounds P v
    (min n (standingOnes P now memories q queryVec).length) ([], standingOnes P now memories q queryVec)
  rw [List.nil_append] at hout
  rw [selectable_eq hP h]
  by_cases hn : n ≤ (standingOnes P now memories q queryVec).length
  · rw [min_eq_left hn] at hrounds hout
    rw [hrounds, hout]
    exact ⟨out, [], by simp, fun m hm => hperm.subset (List.mem_append_left _ hm), by simp, .inl rfl⟩
  · rw [min_eq_right (by omega)] at hrounds hout hperm
    have hdone : ((mmrRound P v)^[(standingOnes P now memories q queryVec).length]
        ([], standingOnes P now memories q queryVec)).2 = [] := by
      refine List.eq_nil_of_length_eq_zero ?_
      rw [length_rounds, Nat.sub_self]
    -- the rounds that are left find the other memories alone
    rw [hdone, List.append_nil] at hperm
    rw [hdone, hout, List.nil_append] at hrounds
    obtain ⟨rest, hrest, hothers, -⟩ := exists_append_rounds P v
      (n - (standingOnes P now memories q queryVec).length) (out, otherOnes P now memories q queryVec)
    have hsplit : n = (n - (standingOnes P now memories q queryVec).length) +
        (standingOnes P now memories q queryVec).length := by omega
    rw [hsplit, Function.iterate_add_apply, hrounds, hrest]
    exact ⟨out, rest, rfl, fun m hm => hperm.subset hm,
      fun m hm => hothers.subset (List.mem_append_left _ hm), .inr fun m hm => hperm.symm.subset hm⟩

theorem mem_of_pair_sublist {l₁ l₂ : List Memory} (h : [m, x].Sublist (l₁ ++ x :: l₂)) (hx : x ∉ l₂)
    (hne : m ≠ x) : m ∈ l₁ := by
  obtain ⟨r₁, r₂, hsplit, hleft, hright⟩ := List.sublist_append_iff.mp h
  rcases List.cons_eq_append_iff.mp hsplit with ⟨rfl, rfl⟩ | ⟨r, rfl, -⟩
  · rcases List.sublist_cons_iff.mp hright with hlater | ⟨r, hr, -⟩
    · exact absurd (hlater.subset (by simp)) hx
    · exact absurd (List.cons.inj hr).1 hne
  · exact hleft.subset List.mem_cons_self

/-- In the first round that does not prefer the standing instructions, one is passed over. -/
theorem passed_over (hP : P.floats.Ieee) (h : WellFormed memories) {n : ℕ}
    (hnot : ¬ ∀ i < min n (standingOnes P now memories q queryVec).length,
      Prefers P v ((mmrRound P v)^[i] ([], standingOnes P now memories q queryVec))
        (otherOnes P now memories q queryVec)) :
    ∃ m ∈ standingOnes P now memories q queryVec, ∃ x ∈ otherOnes P now memories q queryVec,
      x ∈ ((mmrRound P v)^[n] ([], selectable P now memories q queryVec)).1 ∧
      ¬ [m, x].Sublist ((mmrRound P v)^[n] ([], selectable P now memories q queryVec)).1 := by
  have hexists : ∃ i, i < min n (standingOnes P now memories q queryVec).length ∧
      ¬ Prefers P v ((mmrRound P v)^[i] ([], standingOnes P now memories q queryVec))
        (otherOnes P now memories q queryVec) := by
    push Not at hnot
    exact hnot
  classical
  obtain ⟨hi, hworse⟩ := Nat.find_spec hexists
  have hbefore (j : ℕ) (hj : j < Nat.find hexists) :
      Prefers P v ((mmrRound P v)^[j] ([], standingOnes P now memories q queryVec))
        (otherOnes P now memories q queryVec) := by
    by_contra hj'
    exact Nat.find_min hexists hj ⟨hj.trans hi, hj'⟩
  generalize Nat.find hexists = i at hi hworse hbefore
  have hle : i ≤ (standingOnes P now memories q queryVec).length := (hi.le.trans (min_le_right _ _))
  have hrounds := rounds_append (s := ([], standingOnes P now memories q queryVec)) hle hbefore
  obtain ⟨out, hout, hperm, -⟩ := exists_append_rounds P v i ([], standingOnes P now memories q queryVec)
  obtain ⟨x, hx, hround⟩ := mmrRound_of_not_prefers hworse
  rw [List.nil_append] at hout
  -- a standing instruction is still in the queue
  have hleft : ((mmrRound P v)^[i] ([], standingOnes P now memories q queryVec)).2 ≠ [] := by
    refine List.ne_nil_of_length_pos ?_
    rw [length_rounds]
    exact Nat.sub_pos_of_lt (lt_of_lt_of_le hi (min_le_right _ _))
  obtain ⟨m, hm⟩ := List.exists_mem_of_ne_nil _ hleft
  have hstanding : m ∈ standingOnes P now memories q queryVec :=
    hperm.subset (List.mem_append_right _ hm)
  obtain ⟨rest, hrest, -⟩ := exists_append_rounds P v (n - (i + 1))
    ((mmrRound P v)^[i + 1] ([], selectable P now memories q queryVec))
  have hanswer : ((mmrRound P v)^[n] ([], selectable P now memories q queryVec)).1 =
      out ++ x :: rest := by
    have hsplit : n = (n - (i + 1)) + (i + 1) := by omega
    rw [hsplit, Function.iterate_add_apply, hrest, Function.iterate_succ_apply', selectable_eq hP h,
      hrounds, hround, hout, List.append_assoc]
    rfl
  refine ⟨m, hstanding, x, hx, by simp [hanswer], fun hsub => ?_⟩
  rw [hanswer] at hsub
  obtain ⟨all, hall, hallperm, -⟩ := exists_append_rounds P v n ([], selectable P now memories q queryVec)
  have hnodup : (out ++ x :: rest).Nodup := by
    rw [← hanswer, hall, List.nil_append]
    exact (hallperm.nodup_iff.mpr (nodup_selectable h)).of_append_left
  have hne : m ≠ x := by
    rintro rfl
    exact of_decide_eq_true (List.mem_filter.mp hx).2 (of_decide_eq_true (List.mem_filter.mp hstanding).2)
  have hselected := mem_of_pair_sublist hsub
    (List.nodup_cons.mp (hnodup.of_append_right)).1 hne
  have hdisjoint := hperm.nodup_iff.mpr ((nodup_selectable h).filter _)
  exact (List.nodup_append.mp hdisjoint).2.2 m hselected m hm rfl

/-- The results are the selection from the ranking. -/
theorem results_eq (hbudget : q.budget = none) {elapsed : ℕ → JsNum} {r : SearchResults}
    (hr : searchQ P now memories q queryVec {} elapsed = .ok r) :
    r.results = selected P now memories q queryVec := by
  rw [searchQ, hbudget] at hr
  obtain rfl := Except.ok.inj hr
  rfl

theorem led_selected (hP : P.floats.Ieee) (h : WellFormed memories) (hbudget : q.budget = none)
    (hprefer : StandingPreferred P now memories q queryVec) : Led P now memories q queryVec
      (selected P now memories q queryVec) := by
  cases hv : usableVector queryVec with
  | none =>
    rw [selection_of_not hbudget (.inl hv)]
    exact led_take hP h _
  | some v =>
    rcases Nat.lt_or_ge (effectiveLimit q) (selectable P now memories q queryVec).length with hlt | hle
    · rw [selection_of_vector hbudget hv hlt]
      exact led_rounds hP h _ (hprefer v hv hlt)
    · rw [selection_of_not hbudget (.inr hle)]
      exact led_take hP h _

theorem length_selected (hbudget : q.budget = none) :
    (selected P now memories q queryVec).length =
      min (effectiveLimit q) (selectable P now memories q queryVec).length := by
  cases hv : usableVector queryVec with
  | none => rw [selection_of_not hbudget (.inl hv), List.length_take]
  | some v =>
    rcases Nat.lt_or_ge (effectiveLimit q) (selectable P now memories q queryVec).length with hlt | hle
    · obtain ⟨out, hout, -, hlength⟩ := exists_append_rounds P v (effectiveLimit q)
        ([], selectable P now memories q queryVec)
      rw [selection_of_vector hbudget hv hlt, hout, List.nil_append, hlength]
    · rw [selection_of_not hbudget (.inr hle), List.length_take]

/-- With another memory among them, the results are not all standing instructions. -/
theorem countP_lt (hbudget : q.budget = none) (hx : x ∈ selected P now memories q queryVec)
    (hother : ¬ Standing x) :
    ¬ effectiveLimit q ≤ (selected P now memories q queryVec).countP (Standing ·) := by
  have hlength : (selected P now memories q queryVec).length = _ := length_selected hbudget
  have hcount : (selected P now memories q queryVec).countP (Standing ·) <
      (selected P now memories q queryVec).length :=
    List.countP_lt_length_iff.mpr ⟨x, hx, decide_eq_false hother⟩
  omega

theorem subset_of_led (hled : Led P now memories q queryVec (selected P now memories q queryVec))
    (hm : m ∈ selected P now memories q queryVec) : m ∈ selectable P now memories q queryVec := by
  obtain ⟨front, back, hsplit, hfront, hback, -⟩ := hled
  rw [hsplit] at hm
  rcases List.mem_append.mp hm with hm | hm
  · exact List.mem_of_mem_filter (hfront m hm)
  · exact List.mem_of_mem_filter (hback m hm)

theorem selected_subperm (hbudget : q.budget = none) :
    (selected P now memories q queryVec).Subperm (selectable P now memories q queryVec) := by
  cases hv : usableVector queryVec with
  | none =>
    rw [selection_of_not hbudget (.inl hv)]
    exact (List.take_sublist _ _).subperm
  | some v =>
    rcases Nat.lt_or_ge (effectiveLimit q) (selectable P now memories q queryVec).length with hlt | hle
    · obtain ⟨out, hout, hperm, -⟩ := exists_append_rounds P v (effectiveLimit q)
        ([], selectable P now memories q queryVec)
      rw [selection_of_vector hbudget hv hlt, hout, List.nil_append]
      exact (List.sublist_append_left out _).subperm.trans hperm.subperm
    · rw [selection_of_not hbudget (.inr hle)]
      exact (List.take_sublist _ _).subperm

theorem nodup_selected (h : WellFormed memories) (hbudget : q.budget = none) :
    (selected P now memories q queryVec).Nodup := by
  obtain ⟨l, hperm, hsub⟩ := selected_subperm (P := P) hbudget
  exact hperm.nodup_iff.mp ((nodup_selectable h).sublist hsub)

/-- The standing instructions come first in the answer exactly when the diversity selection prefers
    them, and the seeds keep them or there is no room or no other memory for their places. -/
theorem standingAbsolute_iff (hP : P.floats.Ieee) (h : WellFormed memories) (hbudget : q.budget = none)
    {elapsed : ℕ → JsNum} {r : SearchResults}
    (hr : searchQ P now memories q queryVec {} elapsed = .ok r) :
    StandingAbsolute P now memories q queryVec r.results ↔
      StandingPreferred P now memories q queryVec ∧
        (SeedsKeepStanding P now memories q queryVec ∨
          effectiveLimit q ≤ (standingOnes P now memories q queryVec).length ∨
          otherOnes P now memories q queryVec = []) := by
  rw [results_eq hbudget hr]
  constructor
  · intro habsolute
    have hbefore (x : Memory) (hx : x ∈ selected P now memories q queryVec) (hother : ¬ Standing x)
        (m : Memory) (hm : Owed P now memories q queryVec m) :
        [m, x].Sublist (selected P now memories q queryVec) :=
      (habsolute x hx hother m hm).resolve_right (countP_lt hbudget hx hother)
    have hprefer : StandingPreferred P now memories q queryVec := by
      intro v hv hlt
      by_contra hnot
      obtain ⟨m, hm, x, hx, hselected, hsub⟩ := passed_over hP h hnot
      rw [← selection_of_vector hbudget hv hlt] at hselected hsub
      exact hsub (hbefore x hselected (of_decide_eq_true (List.mem_filter.mp hx).2) m
        (owed_of_mem_standingOnes h hm).1)
    refine ⟨hprefer, ?_⟩
    by_contra hnot
    simp only [SeedsKeepStanding, not_or, not_forall] at hnot
    obtain ⟨⟨m, hm, hunranked⟩, hroom, hothers⟩ := hnot
    have hled := led_selected hP h hbudget hprefer
    -- there is room for another memory, and before it the instruction that no seed names is missing
    have hother : ∃ x ∈ selected P now memories q queryVec, ¬ Standing x := by
      by_contra hall
      push Not at hall
      have hsubset : selected P now memories q queryVec ⊆ standingOnes P now memories q queryVec :=
        fun x hx => List.mem_filter.mpr ⟨subset_of_led hled hx, decide_eq_true (hall x hx)⟩
      have hfits := ((nodup_selected h hbudget).subperm hsubset).length_le
      have hlength : (selected P now memories q queryVec).length = _ := length_selected hbudget
      have hsplit : selectable P now memories q queryVec = _ := selectable_eq hP h
      have hsum := congrArg List.length hsplit
      rw [List.length_append] at hsum
      have hpos := List.length_pos_of_ne_nil hothers
      omega
    obtain ⟨x, hx, hother⟩ := hother
    have hin := subset_of_led hled ((hbefore x hx hother m hm).subset List.mem_cons_self)
    exact hunranked (mem_currentRanking.mp (deduped_sublist.subset (List.mem_of_mem_take hin))).1
  · rintro ⟨hprefer, hcases⟩ x hx hother m hm
    have hled := led_selected hP h hbudget hprefer
    obtain ⟨front, back, hsplit, hfront, hback, hall⟩ := hled
    rw [hsplit] at hx
    have hxback : x ∈ back := by
      refine (List.mem_append.mp hx).resolve_left fun hx => hother ?_
      exact of_decide_eq_true (List.mem_filter.mp (hfront x hx)).2
    have hall := hall.resolve_left (List.ne_nil_of_mem hxback)
    rcases hcases with hseeds | hroom | hothers
    · left
      have hkept := mem_deduped_of_owed h hm (hseeds m hm)
      have hselectable := mem_selectable_of_standing hP h
        (List.mem_of_mem_filter (hback x hxback)) hother hkept hm.2.1
      have hfirst := hall m (List.mem_filter.mpr ⟨hselectable, decide_eq_true hm.2.1⟩)
      rw [hsplit]
      exact (List.singleton_sublist.mpr hfirst).append (List.singleton_sublist.mpr hxback)
    · exfalso
      have hnodup : (standingOnes P now memories q queryVec).Nodup := (nodup_selectable h).filter _
      have hfits := (hnodup.subperm hall).length_le
      have hlength : (selected P now memories q queryVec).length = _ := length_selected hbudget
      have hpos := List.length_pos_of_mem hxback
      rw [hsplit, List.length_append] at hlength
      omega
    · have hmem := hback x hxback
      rw [hothers] at hmem
      cases hmem

end Standing

/-- A platform that rounds nothing is one that the ranking can rely on. -/
theorem plainPlatform_ieee : plainPlatform.floats.Ieee where
  integers _ _ := rfl
  mono p q hpq := by
    have hcases : p < q ∨ p = q := hpq.lt_or_eq
    simpa [plainPlatform, atMost, less] using hcases
  exp2 _ _ := ⟨1, rfl, by norm_num, le_refl _⟩

def rule (id content : String) : Memory :=
  { plainMemory id content "global" with type := .instruction, embedding := some [ofInt 1, ofInt 0] }

/-- Two rules of one kind, and a note. -/
def twoRules : List Memory :=
  [rule "a" "Write tests.", rule "b" "Write lints.", plainMemory "c" "The port is 80." "global"]

theorem wellFormed_twoRules : WellFormed twoRules where
  ids := by decide +kernel
  importance := by simp [twoRules, rule, plainMemory]
  confidence := by simp [twoRules, rule, plainMemory]

/-- Without a vector nothing is diversified. -/
theorem standingAbsolute_twoRules : ∃ r,
    searchQ plainPlatform 1767225600000 twoRules { limit := some 2 } none {} (fun _ => ofInt 0) = .ok r ∧
    StandingAbsolute plainPlatform 1767225600000 twoRules { limit := some 2 } none r.results := by
  have hpasses : ∀ m ∈ twoRules, passesGates plainPlatform { limit := some 2 } none {} m = true := by
    decide +kernel
  refine ⟨_, rfl, (standingAbsolute_iff plainPlatform_ieee wellFormed_twoRules rfl rfl).mpr ⟨?_, .inl ?_⟩⟩
  · intro v hv
    cases hv
  · intro m hm
    exact ⟨hm.1, hpasses m hm.1, .inr fun n _ _ => List.not_mem_nil⟩

/-- The second rule resembles the first one, so that the note is selected before it. -/
theorem rule_loses_to_note :
    ¬ ∀ (P : Platform) (now : ℤ) (memories : List Memory) (q : SearchQuery)
      (queryVec : Option (List JsNum)) (elapsed : ℕ → JsNum) (r : SearchResults),
      P.floats.Ieee → WellFormed memories → q.budget = none →
      searchQ P now memories q queryVec {} elapsed = .ok r →
      StandingAbsolute P now memories q queryVec r.results := by
  intro hall
  have hranking : fullRanking plainPlatform 1767225600000 twoRules { limit := some 2 }
      (some [ofInt 0, ofInt 1]) {} = twoRules :=
    fullRanking_of_sorted rfl (by decide +kernel) (by decide +kernel) (by decide +kernel)
      (by decide +kernel)
  have hselected := hall plainPlatform 1767225600000 twoRules { limit := some 2 }
    (some [ofInt 0, ofInt 1]) (fun _ => ofInt 0) _ plainPlatform_ieee wellFormed_twoRules rfl rfl
  have hnote : ∃ x ∈ selected plainPlatform 1767225600000 twoRules { limit := some 2 }
      (some [ofInt 0, ofInt 1]), ¬ Standing x := by
    rw [selected, deduped, currentRanking, hranking]
    decide +kernel
  have hlost : "b" ∉ (selected plainPlatform 1767225600000 twoRules { limit := some 2 }
      (some [ofInt 0, ofInt 1])).map (·.id) := by
    rw [selected, deduped, currentRanking, hranking]
    decide +kernel
  have hkept : "b" ∉ (deduped plainPlatform 1767225600000 twoRules { limit := some 2 }
      (some [ofInt 0, ofInt 1]) {}).removed.map (·.id) := by
    rw [deduped, currentRanking, hranking]
    decide +kernel
  obtain ⟨x, hx, hother⟩ := hnote
  have howed : Owed plainPlatform 1767225600000 twoRules { limit := some 2 }
      (some [ofInt 0, ofInt 1]) (rule "b" "Write lints.") := by
    refine ⟨List.mem_cons_of_mem _ List.mem_cons_self, by decide, by decide +kernel,
      .inr (by decide +kernel), hkept⟩
  rcases hselected x hx hother _ howed with hbefore | hfilled
  · exact hlost (List.mem_map_of_mem (hbefore.subset List.mem_cons_self))
  · exact countP_lt rfl hx hother hfilled

end Remembra.Retrieval
