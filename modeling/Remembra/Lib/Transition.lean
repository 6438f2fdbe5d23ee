import Mathlib.Tactic.Common

/-! Runs of a machine given as a partial step function `step : σ → α → Option σ`: an action that is
    not enabled in a state steps to `none`. An interleaving of several parties is such a machine,
    with one action for each atomic step of each party, so what holds over every interleaving is
    what holds over every list of actions.

    Three ways of looking at a run: `run` (the state it ends in), `Along` (each step is taken from a
    state that meets a condition on the state and the action) and `Everywhere` (each state visited
    meets a predicate). The rules at the end turn facts about one step into facts about runs. -/

namespace Remembra.Transition

variable {σ α : Type*}

/-- The state at the end of the run, `none` as soon as an action is not enabled. -/
def run (step : σ → α → Option σ) : σ → List α → Option σ
  | s, [] => some s
  | s, a :: as => (step s a).bind fun t => run step t as

/-- Every step of the run is taken from a state and with an action that meet `ok`. -/
def Along (step : σ → α → Option σ) (ok : σ → α → Prop) : σ → List α → Prop
  | _, [] => True
  | s, a :: as => ∀ t, step s a = some t → ok s a ∧ Along step ok t as

/-- Every state the run visits, the first and the last included, meets `P`. -/
def Everywhere (step : σ → α → Option σ) (P : σ → Prop) : σ → List α → Prop
  | s, [] => P s
  | s, a :: as => P s ∧ ∀ t, step s a = some t → Everywhere step P t as

/-- Every action meets `ok` where its turn comes. -/
def Clears (step : σ → α → Option σ) (ok : σ → α → Prop) : σ → List α → Prop
  | _, [] => True
  | s, a :: as => ok s a ∧ ∀ t, step s a = some t → Clears step ok t as

/-- The states that some run reaches from `s`. -/
def Reachable (step : σ → α → Option σ) (s t : σ) : Prop := ∃ as, run step s as = some t

variable {step : σ → α → Option σ} {ok : σ → α → Prop} {P I : σ → Prop}

@[simp] theorem run_nil (s : σ) : run step s [] = some s := rfl

theorem run_cons (s : σ) (a : α) (as : List α) :
    run step s (a :: as) = (step s a).bind fun t => run step t as := rfl

theorem run_cons_some {s t : σ} {a : α} {as : List α} :
    run step s (a :: as) = some t ↔ ∃ u, step s a = some u ∧ run step u as = some t := by
  rw [run_cons, Option.bind_eq_some_iff]

theorem run_append_some {s t : σ} {as bs : List α} :
    run step s (as ++ bs) = some t ↔ ∃ u, run step s as = some u ∧ run step u bs = some t := by
  induction as generalizing s with
  | nil => simp
  | cons a as ih =>
    simp only [List.cons_append, run_cons_some, ih]
    constructor
    · rintro ⟨v, hv, u, hu, hrest⟩
      exact ⟨u, ⟨v, hv, hu⟩, hrest⟩
    · rintro ⟨u, ⟨v, hv, hu⟩, hrest⟩
      exact ⟨v, hv, u, hu, hrest⟩

instance Along.decidable [∀ s a, Decidable (ok s a)] : ∀ (as : List α) (s : σ),
    Decidable (Along step ok s as)
  | [], _ => .isTrue trivial
  | a :: as, s =>
    match h : step s a with
    | none => .isTrue fun t ht => by rw [h] at ht; cases ht
    | some t =>
      have := Along.decidable as t
      decidable_of_iff (ok s a ∧ Along step ok t as) ⟨fun hs u hu => by
        obtain rfl : t = u := Option.some.inj (h.symm.trans hu)
        exact hs, fun hs => hs t h⟩

instance Everywhere.decidable [DecidablePred P] : ∀ (as : List α) (s : σ),
    Decidable (Everywhere step P s as)
  | [], s => inferInstanceAs (Decidable (P s))
  | a :: as, s =>
    match h : step s a with
    | none => decidable_of_iff (P s) ⟨fun hs => ⟨hs, fun t ht => by rw [h] at ht; cases ht⟩,
        fun hs => hs.1⟩
    | some t =>
      have := Everywhere.decidable as t
      decidable_of_iff (P s ∧ Everywhere step P t as) ⟨fun hs => ⟨hs.1, fun u hu => by
        obtain rfl : t = u := Option.some.inj (h.symm.trans hu)
        exact hs.2⟩, fun hs => ⟨hs.1, hs.2 t h⟩⟩

/-- One more step in front of a run whose steps meet `ok`. -/
theorem along_cons {s t : σ} {a : α} {as : List α} (h : step s a = some t) (ha : ok s a)
    (hs : Along step ok t as) : Along step ok s (a :: as) := by
  intro u hu
  obtain rfl : t = u := Option.some.inj (h.symm.trans hu)
  exact ⟨ha, hs⟩

/-- A condition met in every state and by every action is met along every run. -/
theorem along_of_forall (h : ∀ s a, ok s a) (s : σ) (as : List α) : Along step ok s as := by
  induction as generalizing s with
  | nil => trivial
  | cons a as ih => exact fun t _ => ⟨h s a, ih t⟩

/-- A condition on the actions alone. -/
theorem along_of_mem {good : α → Prop} {as : List α} (h : ∀ a ∈ as, good a) (s : σ) :
    Along step (fun _ a => good a) s as := by
  induction as generalizing s with
  | nil => trivial
  | cons a as ih =>
    exact fun t _ => ⟨h a (List.mem_cons_self ..), ih (fun b hb => h b (List.mem_cons_of_mem _ hb)) t⟩

/-- The run rule: what every step that meets `ok` preserves holds in the state a run of such steps
    ends in. -/
theorem run_induct (hstep : ∀ s a t, I s → ok s a → step s a = some t → I t) (as : List α)
    {s t : σ} (hs : I s) (hok : Along step ok s as) (hrun : run step s as = some t) : I t := by
  induction as generalizing s with
  | nil =>
    rw [run_nil, Option.some.injEq] at hrun
    exact hrun ▸ hs
  | cons a as ih =>
    obtain ⟨u, hu, hrest⟩ := run_cons_some.mp hrun
    obtain ⟨ha, hoks⟩ := hok u hu
    exact ih (hstep s a u hs ha hu) hoks hrest

/-- The run rule without a condition on the steps. -/
theorem reachable_induct (hstep : ∀ s a t, I s → step s a = some t → I t) {s t : σ} (hs : I s)
    (h : Reachable step s t) : I t := by
  obtain ⟨as, has⟩ := h
  have hok : Along step (fun _ _ => True) s as := along_of_forall (fun _ _ => trivial) s as
  exact run_induct (fun s a t hI _ ht => hstep s a t hI ht) as hs hok has

/-- The invariant of the steps that meet `ok` gives `P` in every state of a run of such steps. -/
theorem everywhere_of_along (hstep : ∀ s a t, I s → ok s a → step s a = some t → I t)
    (hP : ∀ s, I s → P s) (as : List α) {s : σ} (hs : I s) (hok : Along step ok s as) :
    Everywhere step P s as := by
  induction as generalizing s with
  | nil => exact hP s hs
  | cons a as ih =>
    refine ⟨hP s hs, ?_⟩
    intro t ht
    obtain ⟨ha, hoks⟩ := hok t ht
    exact ih (hstep s a t hs ha ht) hoks

/-- A machine whose steps need `ok` runs to the end exactly where every action meets `ok`. -/
theorem run_iff_clears (h : ∀ s a, (∃ t, step s a = some t) ↔ ok s a) (as : List α) {s : σ} :
    (∃ t, run step s as = some t) ↔ Clears step ok s as := by
  induction as generalizing s with
  | nil => exact iff_of_true ⟨s, rfl⟩ trivial
  | cons a as ih =>
    constructor
    · rintro ⟨t, hrun⟩
      obtain ⟨u, hu, hrest⟩ := run_cons_some.mp hrun
      refine ⟨(h s a).mp ⟨u, hu⟩, fun v hv => ?_⟩
      obtain rfl : u = v := Option.some.inj (hu.symm.trans hv)
      exact ih.mp ⟨t, hrest⟩
    · rintro ⟨ha, hrest⟩
      obtain ⟨u, hu⟩ := (h s a).mpr ha
      obtain ⟨t, ht⟩ := ih.mpr (hrest u hu)
      exact ⟨t, run_cons_some.mpr ⟨u, hu, ht⟩⟩

/-- The run rule for what is asked of the steps: what the invariant of the steps that meet `ok` makes
    of `ok` holds of every step of a run of such steps. -/
theorem along_of_along {good : σ → α → Prop}
    (hstep : ∀ s a t, I s → ok s a → step s a = some t → I t)
    (hgood : ∀ s a, I s → ok s a → good s a) (as : List α) {s : σ} (hs : I s)
    (hok : Along step ok s as) : Along step good s as := by
  induction as generalizing s with
  | nil => trivial
  | cons a as ih =>
    intro t ht
    obtain ⟨ha, hrest⟩ := hok t ht
    exact ⟨hgood s a hs ha, ih (hstep s a t hs ha ht) hrest⟩

/-- The rule for a part of the actions: where each of them does in one machine what it does in the other,
    and every other action leaves the two alike, the run has a run of that part beside it. -/
theorem run_filter {τ : Type*} {step' : τ → α → Option τ} {R : σ → τ → Prop} (own : α → Bool)
    (hown : ∀ s a t s', R s s' → ok s a → own a = true → step s a = some t →
      ∃ t', step' s' a = some t' ∧ R t t')
    (hother : ∀ s a t s', R s s' → own a = false → step s a = some t → R t s') (as : List α) {s t : σ} {s' : τ}
    (hR : R s s') (hok : Along step ok s as) (hrun : run step s as = some t) :
    ∃ t', run step' s' (as.filter own) = some t' ∧ R t t' := by
  induction as generalizing s s' with
  | nil =>
    rw [run_nil, Option.some.injEq] at hrun
    exact ⟨s', rfl, hrun ▸ hR⟩
  | cons a as ih =>
    obtain ⟨u, hu, hrest⟩ := run_cons_some.mp hrun
    obtain ⟨ha, hoks⟩ := hok u hu
    cases hpart : own a with
    | true =>
      obtain ⟨u', hu', hRu⟩ := hown s a u s' hR ha hpart hu
      obtain ⟨t', ht', hRt⟩ := ih hRu hoks hrest
      exact ⟨t', by rw [List.filter_cons_of_pos hpart, run_cons_some]; exact ⟨u', hu', ht'⟩, hRt⟩
    | false =>
      obtain ⟨t', ht', hRt⟩ := ih (hother s a u s' hR hpart hu) hoks hrest
      exact ⟨t', by rw [List.filter_cons_of_neg (by rw [hpart]; exact Bool.noConfusion)]; exact ht', hRt⟩

/-- What the states say one by one, along a whole run. -/
theorem Everywhere.mp {Q : σ → Prop} {as : List α} {s : σ}
    (h : Everywhere step (fun s => P s → Q s) s as) (hP : Everywhere step P s as) :
    Everywhere step Q s as := by
  induction as generalizing s with
  | nil => exact h hP
  | cons a as ih => exact ⟨h.1 hP.1, fun t ht => ih (h.2 t ht) (hP.2 t ht)⟩

theorem everywhere_of_forall (h : ∀ s, P s) (s : σ) (as : List α) : Everywhere step P s as := by
  induction as generalizing s with
  | nil => exact h s
  | cons a as ih => exact ⟨h s, fun t _ => ih t⟩

/-- A predicate that holds everywhere holds at the end. -/
theorem Everywhere.of_run {as : List α} {s t : σ} (h : Everywhere step P s as)
    (hrun : run step s as = some t) : P t := by
  induction as generalizing s with
  | nil =>
    rw [run_nil, Option.some.injEq] at hrun
    exact hrun ▸ h
  | cons a as ih =>
    obtain ⟨u, hu, hrest⟩ := run_cons_some.mp hrun
    exact ih (h.2 u hu) hrest

/-- A run that ends in a bad state. -/
theorem not_everywhere {as : List α} {s : σ} (bad : σ → Bool) (h : (run step s as).any bad = true)
    (hbad : ∀ t, bad t = true → ¬ P t) : ¬ Everywhere step P s as := by
  intro hall
  obtain ⟨t, ht, htbad⟩ := (Option.any_eq_true _ _).mp h
  exact hbad t htbad (hall.of_run ht)

/-- The exactness rule: when a step that misses `ok` breaks `P` on the spot, the runs with `P`
    everywhere are exactly the runs whose steps all meet `ok`. -/
theorem everywhere_iff_along (hstep : ∀ s a t, I s → ok s a → step s a = some t → I t)
    (hP : ∀ s, I s → P s) (hbad : ∀ s a t, I s → ¬ ok s a → step s a = some t → ¬ P t)
    {s : σ} (hs : I s) (as : List α) : Everywhere step P s as ↔ Along step ok s as := by
  refine ⟨fun h => ?_, everywhere_of_along hstep hP as hs⟩
  induction as generalizing s with
  | nil => trivial
  | cons a as ih =>
    intro t ht
    have hnext : Everywhere step P t as := h.2 t ht
    have hok : ok s a := by
      by_contra hnot
      refine hbad s a t hs hnot ht ?_
      cases as with
      | nil => exact hnext
      | cons b bs => exact hnext.1
    exact ⟨hok, ih (hstep s a t hs hok ht) hnext⟩

/-- The exactness rule within the runs whose steps all meet `good`: where each step comes to `P` exactly
    when it meets `ok`, the runs with `P` everywhere are those whose steps all meet `ok`. -/
theorem everywhere_iff_along_of_along {good : σ → α → Prop}
    (hstep : ∀ s a t, I s → good s a → step s a = some t → I t)
    (hP : ∀ s a t, I s → good s a → step s a = some t → (P t ↔ ok s a))
    {s : σ} (hs : I s) (hPs : P s) (as : List α) (hgood : Along step good s as) :
    Everywhere step P s as ↔ Along step ok s as := by
  induction as generalizing s with
  | nil => exact iff_of_true hPs trivial
  | cons a as ih =>
    constructor
    · intro h t ht
      obtain ⟨ha, hrest⟩ := hgood t ht
      have hnext : Everywhere step P t as := h.2 t ht
      have hPt : P t := by
        cases as with
        | nil => exact hnext
        | cons b bs => exact hnext.1
      exact ⟨(hP s a t hs ha ht).mp hPt, (ih (hstep s a t hs ha ht) hPt hrest).mp hnext⟩
    · intro h
      refine ⟨hPs, fun t ht => ?_⟩
      obtain ⟨ha, hrest⟩ := hgood t ht
      obtain ⟨hok, halong⟩ := h t ht
      exact (ih (hstep s a t hs ha ht) ((hP s a t hs ha ht).mpr hok) hrest).mpr halong

end Remembra.Transition
