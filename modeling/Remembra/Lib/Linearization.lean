import Mathlib.Data.List.Nodup

/-! Concurrent calls that take effect one at a time. A state shows which calls have begun, what came of
    those that have taken effect, and which were settled before each began. It is linearizable when the
    calls that have taken effect can be put in an order, one that respects what was settled before, in
    which they have the same outcomes alone and leave the same state. The order grows at its end: by a
    call that takes effect as it would alone (`Linearizes.effect`), and by nothing otherwise
    (`Linearizes.silent`). -/

namespace Remembra

variable {ι κ σ ρ : Type*}

/-- What calls answer one after the other, and the state they leave. -/
def sequentially (alone : κ → σ → ρ × σ) (s : σ) : List κ → List ρ × σ
  | [] => ([], s)
  | c :: rest =>
    ((alone c s).1 :: (sequentially alone (alone c s).2 rest).1,
      (sequentially alone (alone c s).2 rest).2)

theorem sequentially_concat (alone : κ → σ → ρ × σ) (s : σ) (calls : List κ) (c : κ) :
    sequentially alone s (calls ++ [c]) =
      ((sequentially alone s calls).1 ++ [(alone c (sequentially alone s calls).2).1],
        (alone c (sequentially alone s calls).2).2) := by
  induction calls generalizing s with
  | nil => rfl
  | cons c' calls ih =>
    rw [List.cons_append, sequentially, ih]
    rfl

/-- A call that has begun. -/
structure Occurrence (ι κ ρ : Type*) where
  call : κ
  /-- What came of it, once it has taken effect. -/
  outcome : Option ρ
  /-- The calls that were settled before it began. -/
  earlier : List ι
  deriving DecidableEq

/-- The order explains the state. -/
structure Linearizes (alone : κ → σ → ρ × σ) (start : σ) (view : ι → Option (Occurrence ι κ ρ)) (s : σ)
    (order : List (ι × κ)) : Prop where
  nodup : (order.map (·.1)).Nodup
  /-- It is an order of the calls that have taken effect. -/
  complete : ∀ i c, (i, c) ∈ order ↔ ∃ o, view i = some o ∧ o.call = c ∧ o.outcome.isSome = true
  state : (sequentially alone start (order.map (·.2))).2 = s
  outcomes : List.Forall₂ (fun p r => ∃ o, view p.1 = some o ∧ o.call = p.2 ∧ o.outcome = some r)
    order (sequentially alone start (order.map (·.2))).1
  /-- What was settled before a call began has taken effect before it. -/
  realTime : ∀ i j o, view j = some o → i ∈ o.earlier → j ∈ order.map (·.1) →
    ∃ l l', order = l ++ l' ∧ i ∈ l.map (·.1) ∧ j ∈ l'.map (·.1)
  earlier : ∀ j o, view j = some o → ∀ i ∈ o.earlier, i ∈ order.map (·.1)

namespace Linearizes
variable {alone : κ → σ → ρ × σ} {start s : σ} {view view' : ι → Option (Occurrence ι κ ρ)}
  {order : List (ι × κ)} {i : ι} {o : Occurrence ι κ ρ}

theorem nil (hview : ∀ i, view i = none) : Linearizes alone start view start [] where
  nodup := List.nodup_nil
  complete := by simp [hview]
  state := rfl
  outcomes := .nil
  realTime := by simp
  earlier := by simp [hview]

theorem mem_order (h : Linearizes alone start view s order) {i : ι} :
    i ∈ order.map (·.1) ↔ ∃ o, view i = some o ∧ o.outcome.isSome = true := by
  constructor
  · intro hi
    obtain ⟨⟨i, c⟩, hp, rfl⟩ := List.mem_map.mp hi
    obtain ⟨o, hview, -, hsome⟩ := (h.complete i c).mp hp
    exact ⟨o, hview, hsome⟩
  · rintro ⟨o, hview, hsome⟩
    exact List.mem_map_of_mem (f := (·.1)) ((h.complete i o.call).mpr ⟨o, hview, rfl, hsome⟩)

/-- Nothing takes effect; a call may begin. -/
theorem silent (h : Linearizes alone start view s order)
    (hview : ∀ i, view' i = view i ∨ view i = none ∧ ∃ o, view' i = some o ∧ o.outcome = none ∧
      ∀ j ∈ o.earlier, j ∈ order.map (·.1)) :
    Linearizes alone start view' s order := by
  have hkeep : ∀ {i o}, o.outcome.isSome = true → (view' i = some o ↔ view i = some o) := by
    intro i o hsome
    obtain hsame | ⟨hnone, o', hnew, hout, -⟩ := hview i
    · rw [hsame]
    · rw [hnone, hnew]
      simp only [Option.some.injEq, reduceCtorEq, iff_false]
      rintro rfl
      rw [hout] at hsome
      cases hsome
  refine ⟨h.nodup, fun i c => (h.complete i c).trans ?_, h.state, .imp ?_ h.outcomes, ?_, ?_⟩
  · exact exists_congr fun o => and_congr_left fun h => (hkeep h.2).symm
  · rintro p r ⟨o, hp, hcall, hout⟩
    exact ⟨o, (hkeep (by rw [hout]; rfl)).mpr hp, hcall, hout⟩
  · intro i j o hj hi hmem
    obtain ⟨o', hold, hsome⟩ := h.mem_order.mp hmem
    obtain rfl : o' = o := Option.some.inj (((hkeep hsome).mpr hold).symm.trans hj)
    exact h.realTime i j o' hold hi hmem
  · intro j o hj i hi
    obtain hsame | ⟨-, o', hnew, -, hearlier⟩ := hview j
    · exact h.earlier j o (hsame.symm.trans hj) i hi
    · obtain rfl : o' = o := Option.some.inj (hnew.symm.trans hj)
      exact hearlier i hi

/-- A call takes effect, as it would alone. -/
theorem effect [DecidableEq ι] (h : Linearizes alone start view s order) (hi : view i = some o)
    (hnone : o.outcome = none)
    (hview : view' = Function.update view i (some { o with outcome := some (alone o.call s).1 })) :
    Linearizes alone start view' (alone o.call s).2 (order ++ [(i, o.call)]) := by
  have hnot : i ∉ order.map (·.1) := by
    rw [h.mem_order]
    rintro ⟨o', hi', hsome⟩
    obtain rfl : o' = o := Option.some.inj (hi'.symm.trans hi)
    rw [hnone] at hsome
    cases hsome
  have hself : view' i = some { o with outcome := some (alone o.call s).1 } := by
    rw [hview, Function.update_self]
  have hother : ∀ {j}, j ≠ i → view' j = view j := fun hj => by
    rw [hview, Function.update_of_ne hj]
  have hne : ∀ {j}, j ∈ order.map (·.1) → j ≠ i := by
    rintro j hj rfl
    exact hnot hj
  refine ⟨?_, ?_, ?_, ?_, ?_, ?_⟩
  · rw [List.map_append, List.map_cons, List.map_nil, List.nodup_append]
    refine ⟨h.nodup, List.nodup_singleton _, fun j hj k hk => ?_⟩
    rw [List.mem_singleton.mp hk]
    exact hne hj
  · intro j c
    rw [List.mem_append, List.mem_singleton, Prod.mk.injEq, h.complete]
    rcases eq_or_ne j i with rfl | hj
    · simp only [hi, hself, hnone, Option.some.injEq, exists_eq_left', Option.isSome_none,
        Bool.false_eq_true, and_false, false_or, true_and, Option.isSome_some, and_true]
      exact eq_comm
    · simp only [hother hj, hj, false_and, or_false]
  · rw [List.map_append, List.map_cons, List.map_nil, sequentially_concat, h.state]
  · rw [List.map_append, List.map_cons, List.map_nil, sequentially_concat, h.state]
    refine List.rel_append (.imp ?_ h.outcomes) (.cons ⟨_, hself, rfl, rfl⟩ .nil)
    rintro p r ⟨o', hp, hcall, hout⟩
    refine ⟨o', (hother ?_).trans hp, hcall, hout⟩
    exact hne (h.mem_order.mpr ⟨o', hp, by rw [hout]; rfl⟩)
  · intro k j o' hj hk hmem
    rcases eq_or_ne j i with rfl | hji
    · obtain rfl := Option.some.inj (hself.symm.trans hj)
      exact ⟨order, [(j, o.call)], rfl, h.earlier j o hi k hk, List.mem_singleton.mpr rfl⟩
    · rw [hother hji] at hj
      rw [List.map_append, List.mem_append] at hmem
      have hold : j ∈ order.map (·.1) := hmem.resolve_right (by simpa using hji)
      obtain ⟨l, l', rfl, hl, hl'⟩ := h.realTime k j o' hj hk hold
      refine ⟨l, l' ++ [(i, o.call)], by rw [List.append_assoc], hl, ?_⟩
      rw [List.map_append]
      exact List.mem_append_left _ hl'
  · intro j o' hj k hk
    rw [List.map_append]
    refine List.mem_append_left _ ?_
    rcases eq_or_ne j i with rfl | hji
    · obtain rfl := Option.some.inj (hself.symm.trans hj)
      exact h.earlier j o hi k hk
    · rw [hother hji] at hj
      exact h.earlier j o' hj k hk

/-- Where only calls of one kind have taken effect, with one outcome, the first two of an order have it. -/
theorem repeated (h : Linearizes alone start view s order) {c : κ} {r : ρ} {j : ι} (hij : i ≠ j)
    (hi : (view i).any (fun o => o.outcome.isSome) = true)
    (hj : (view j).any (fun o => o.outcome.isSome) = true)
    (hall : ∀ i o, view i = some o → o.call = c ∧ o.outcome = some r) :
    (alone c start).1 = r ∧ (alone c (alone c start).2).1 = r := by
  have hmem : ∀ {k}, (view k).any (fun o => o.outcome.isSome) = true → k ∈ order.map (·.1) := fun hk =>
    h.mem_order.mpr ((Option.any_eq_true _ _).mp hk)
  have hout := h.outcomes
  match order, hout, hmem hi, hmem hj with
  | [p], _, hip, hjp =>
    exact absurd ((List.mem_singleton.mp hip).trans (List.mem_singleton.mp hjp).symm) hij
  | p :: q :: rest, .cons hp (.cons hq _), _, _ =>
    obtain ⟨o, hview, hcall, hr⟩ := hp
    obtain ⟨o', hview', hcall', hr'⟩ := hq
    obtain ⟨hc, hsome⟩ := hall _ o hview
    obtain ⟨hc', hsome'⟩ := hall _ o' hview'
    have hpc : p.2 = c := hcall.symm.trans hc
    have hqc : q.2 = c := hcall'.symm.trans hc'
    have hfirst := Option.some.inj (hr.symm.trans hsome)
    have hsecond := Option.some.inj (hr'.symm.trans hsome')
    dsimp only at hfirst hsecond
    rw [hpc] at hfirst hsecond
    rw [hqc] at hsecond
    exact ⟨hfirst, hsecond⟩

end Linearizes

end Remembra
