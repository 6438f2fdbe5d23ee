import Mathlib.Algebra.Order.Group.Int
import Remembra.Lib.Transition

/-! Records that carry a version counter, changed by several parties through compare-and-set on the
    counter. An update raises the counter by one and may name the version it expects; a move puts the
    record somewhere else and leaves the counter alone; a removal ends the record for good.

    What the counter then protects is a matter of the actions in between: an update that names the
    version a reader saw is the first change since (`losesNothing`), as long as no move is among them,
    and the counter grows with each update (`versionsIncrease`). -/

namespace Remembra

/-- What an action does to a record. -/
inductive Change (ρ : Type*) where
  | created
  | updated (given : ρ) (expected : Option ℤ) (version : ℤ)
  | moved
  | removed

/-- A machine over records, as its callers see it: `change` is what an action does from a state. -/
structure Versioned (σ α κ ρ : Type*) where
  step : σ → α → Option σ
  change : σ → α → Option (κ × Change ρ)
  read : σ → κ → Option ρ
  version : ρ → ℤ
  place : ρ → Bool

namespace Versioned
open Transition

variable {σ α κ ρ : Type*} (M : Versioned σ α κ ρ)

/-- The action changes another record, or none. -/
def Spares (k : κ) (s : σ) (a : α) : Prop := ∀ c, M.change s a ≠ some (k, c)

def Unmoved (k : κ) (s : σ) (a : α) : Prop := M.change s a ≠ some (k, .moved)

/-- Whoever reads a record and later updates it, naming the version read and leaving its place as it
    was, has made the first change since the read, and the record stays where it is; `ok` is asked of
    the steps between the two. -/
def LosesNothing (init : σ) (ok : κ → σ → α → Prop) : Prop :=
  ∀ (before between : List α) (s t u : σ) (k : κ) (m given : ρ) (a : α) (v : ℤ),
    run M.step init before = some s → M.read s k = some m → run M.step s between = some t →
    M.step t a = some u → M.change t a = some (k, .updated given (some (M.version m)) v) →
    M.place given = M.place m → Along M.step (ok k) s between →
    Along M.step (M.Spares k) s between ∧
      ∃ current, M.read t k = some current ∧
        ∀ r, M.read u k = some r → M.place r = M.place current

/-- Each update of a record leaves a higher version than the updates before it. -/
def VersionsIncrease (init : σ) : Prop :=
  ∀ (before between : List α) (s t t' u : σ) (k : κ) (a b : α) (given given' : ρ)
    (expected expected' : Option ℤ) (v v' : ℤ),
    run M.step init before = some s → M.step s a = some t →
    M.change s a = some (k, .updated given expected v) → run M.step t between = some t' →
    M.step t' b = some u → M.change t' b = some (k, .updated given' expected' v') → v < v'

/-- What the machine's actions do to the records, from the states that meet `I`; `Born` are the
    records that there have been. -/
structure Lawful (I : σ → Prop) (Born : σ → κ → Prop) : Prop where
  keeps : ∀ {s t a}, I s → M.step s a = some t → I t
  born : ∀ {s t a k}, I s → M.step s a = some t → Born s k → Born t k
  born_of_read : ∀ {s k r}, I s → M.read s k = some r → Born s k
  created : ∀ {s t a k}, I s → M.step s a = some t → M.change s a = some (k, .created) → ¬ Born s k
  spared : ∀ {s t a k r}, I s → M.step s a = some t → M.Spares k s a → M.read t k = some r →
    ∃ r₀, M.read s k = some r₀ ∧ M.version r = M.version r₀ ∧ M.place r = M.place r₀
  updated : ∀ {s t a k given expected v}, I s → M.step s a = some t →
    M.change s a = some (k, .updated given expected v) →
    ∃ r₀, M.read s k = some r₀ ∧ (∀ x ∈ expected, x = M.version r₀) ∧ v = M.version r₀ + 1 ∧
      ∀ r, M.read t k = some r → M.version r = v ∧ M.place r = M.place given
  moved : ∀ {s t a k r}, I s → M.step s a = some t → M.change s a = some (k, .moved) →
    M.read t k = some r → ∃ r₀, M.read s k = some r₀ ∧ M.version r = M.version r₀
  removed : ∀ {s t a k}, I s → M.step s a = some t → M.change s a = some (k, .removed) →
    M.read t k = none

/-- The record is gone or has at least the version. -/
def Above (k : κ) (v : ℤ) (s : σ) : Prop := ∀ r, M.read s k = some r → v ≤ M.version r

variable {M} {I : σ → Prop} {Born : σ → κ → Prop} {s t : σ} {k : κ} {v : ℤ}

theorem Lawful.above_step (hM : M.Lawful I Born) {a : α} (hI : I s) (hborn : Born s k)
    (ht : M.step s a = some t) (hv : M.Above k v s) : M.Above k v t := by
  intro r hr
  by_cases hspared : M.Spares k s a
  · obtain ⟨r₀, hr₀, hver, -⟩ := hM.spared hI ht hspared hr
    have := hv r₀ hr₀
    omega
  · unfold Spares at hspared
    push Not at hspared
    obtain ⟨c, hc⟩ := hspared
    cases c with
    | created => exact absurd hborn (hM.created hI ht hc)
    | updated given expected w =>
      obtain ⟨r₀, hr₀, -, hw, hnew⟩ := hM.updated hI ht hc
      have hle := hv r₀ hr₀
      have hr := (hnew r hr).1
      omega
    | moved =>
      obtain ⟨r₀, hr₀, hver⟩ := hM.moved hI ht hc hr
      have hle := hv r₀ hr₀
      omega
    | removed =>
      rw [hM.removed hI ht hc] at hr
      cases hr

/-- A version once reached is a lower bound ever after. -/
theorem Lawful.above_run (hM : M.Lawful I Born) {as : List α} (hI : I s) (hborn : Born s k)
    (hv : M.Above k v s) (hrun : run M.step s as = some t) : M.Above k v t := by
  have hstep : ∀ s a t, (I s ∧ Born s k ∧ M.Above k v s) → M.step s a = some t →
      I t ∧ Born t k ∧ M.Above k v t := by
    rintro s a t ⟨hI, hborn, hv⟩ ht
    exact ⟨hM.keeps hI ht, hM.born hI ht hborn, hM.above_step hI hborn ht hv⟩
  have hend := reachable_induct (I := fun s => I s ∧ Born s k ∧ M.Above k v s) hstep
    ⟨hI, hborn, hv⟩ ⟨as, hrun⟩
  exact hend.2.2

/-- An update or a removal leaves the record gone or at a higher version than it had. -/
theorem Lawful.above_change (hM : M.Lawful I Born) {a : α} {c : Change ρ} {m : ρ} (hI : I s)
    (hm : M.read s k = some m) (ht : M.step s a = some t) (hc : M.change s a = some (k, c))
    (hunmoved : M.Unmoved k s a) : M.Above k (M.version m + 1) t := by
  intro r hr
  cases c with
  | created => exact absurd (hM.born_of_read hI hm) (hM.created hI ht hc)
  | updated given expected w =>
    obtain ⟨r₀, hr₀, -, hw, hnew⟩ := hM.updated hI ht hc
    rw [hm, Option.some.injEq] at hr₀
    subst hr₀
    have := (hnew r hr).1
    omega
  | moved => exact absurd hc hunmoved
  | removed =>
    rw [hM.removed hI ht hc] at hr
    cases hr

/-- Among steps that do not move the record, all spare it if it still has its version at the end. -/
theorem Lawful.spared_run (hM : M.Lawful I Born) {as : List α} {m r : ρ} (hI : I s)
    (hm : M.read s k = some m) (hrun : run M.step s as = some t)
    (hok : Along M.step (M.Unmoved k) s as) (hr : M.read t k = some r)
    (hver : M.version r = M.version m) :
    Along M.step (M.Spares k) s as ∧ M.place r = M.place m := by
  induction as generalizing s m with
  | nil =>
    rw [run_nil, Option.some.injEq] at hrun
    subst hrun
    rw [hm, Option.some.injEq] at hr
    subst hr
    exact ⟨trivial, rfl⟩
  | cons a as ih =>
    obtain ⟨u, hu, hrest⟩ := run_cons_some.mp hrun
    obtain ⟨ha, hoks⟩ := hok u hu
    have hIu := hM.keeps hI hu
    have hborn := hM.born hI hu (hM.born_of_read hI hm)
    have hspared : M.Spares k s a := by
      intro c hc
      have habove := hM.above_run hIu hborn (hM.above_change hI hm hu hc ha) hrest r hr
      omega
    -- the record is still there after the step: a record that is gone stays gone
    cases hmu : M.read u k with
    | none =>
      have hgone : M.Above k (M.version m + 1) u := by
        intro r' hr'
        rw [hmu] at hr'
        cases hr'
      have := hM.above_run hIu hborn hgone hrest r hr
      omega
    | some m' =>
      obtain ⟨r₀, hr₀, hver', hplace'⟩ := hM.spared hI hu hspared hmu
      rw [hm, Option.some.injEq] at hr₀
      subst hr₀
      obtain ⟨hall, hplace⟩ := ih hIu hmu hrest hoks (hver.trans hver'.symm)
      exact ⟨along_cons hu hspared hall, hplace.trans hplace'⟩

/-- Compare-and-set on the version loses nothing but moves. -/
theorem Lawful.losesNothing (hM : M.Lawful I Born) {init : σ} (hinit : I init) :
    M.LosesNothing init M.Unmoved := by
  intro before between s t u k m given a v hbefore hm hbetween hu hc hplace hok
  have hI : I s := reachable_induct (fun s a t hI ht => hM.keeps hI ht) hinit ⟨before, hbefore⟩
  have hIt : I t := reachable_induct (fun s a t hI ht => hM.keeps hI ht) hI ⟨between, hbetween⟩
  obtain ⟨r, hr, hexpected, -, hnew⟩ := hM.updated hIt hu hc
  have hver : M.version r = M.version m := (hexpected _ rfl).symm
  obtain ⟨hspared, hsame⟩ := hM.spared_run hI hm hbetween hok hr hver
  refine ⟨hspared, r, hr, fun r' hr' => ?_⟩
  rw [(hnew r' hr').2, hplace, hsame]

theorem Lawful.versionsIncrease (hM : M.Lawful I Born) {init : σ} (hinit : I init) :
    M.VersionsIncrease init := by
  intro before between s t t' u k a b given given' expected expected' v v' hbefore ht hc hbetween
    hu hc'
  have hI : I s := reachable_induct (fun s a t hI ht => hM.keeps hI ht) hinit ⟨before, hbefore⟩
  have hIt := hM.keeps hI ht
  have hIt' : I t' := reachable_induct (fun s a t hI ht => hM.keeps hI ht) hIt ⟨between, hbetween⟩
  obtain ⟨r₀, hr₀, -, -, hnew⟩ := hM.updated hI ht hc
  have hborn := hM.born hI ht (hM.born_of_read hI hr₀)
  have habove : M.Above k v t := fun r hr => (hnew r hr).1.ge
  obtain ⟨r, hr, -, hv', -⟩ := hM.updated hIt' hu hc'
  have hle := hM.above_run hIt hborn habove hbetween r hr
  omega

/-- The update names the version of `m` and leaves its place as it was. -/
def namesVersion [DecidableEq κ] (M : Versioned σ α κ ρ) (k : κ) (m : ρ) :
    Option (κ × Change ρ) → Bool
  | some (k', .updated given (some x) _) =>
    k' = k && x = M.version m && M.place given = M.place m
  | _ => false

/-- A run that loses a change: the record is read, changed by the next action, and later updated with
    the version that was read. -/
theorem not_losesNothing [DecidableEq κ] {init : σ} (k : κ) (before : List α) (b : α)
    (rest : ρ → List α) (act : ρ → α)
    (h : ((run M.step init before).any fun s => (M.read s k).any fun m =>
      (M.change s b).any (fun c => c.1 = k) && (run M.step s (b :: rest m)).any fun t =>
        (M.step t (act m)).isSome && M.namesVersion k m (M.change t (act m))) = true) :
    ¬ M.LosesNothing init fun _ _ _ => True := by
  intro hall
  obtain ⟨s, hs, h⟩ := (Option.any_eq_true _ _).mp h
  obtain ⟨m, hm, h⟩ := (Option.any_eq_true _ _).mp h
  rw [Bool.and_eq_true] at h
  obtain ⟨hb, h⟩ := h
  obtain ⟨t, ht, h⟩ := (Option.any_eq_true _ _).mp h
  rw [Bool.and_eq_true] at h
  obtain ⟨hstep, hnames⟩ := h
  obtain ⟨u, hu⟩ := Option.isSome_iff_exists.mp hstep
  unfold namesVersion at hnames
  split at hnames
  · rename_i k' given x v hc
    simp only [Bool.and_eq_true, decide_eq_true_iff] at hnames
    obtain ⟨⟨rfl, rfl⟩, hplace⟩ := hnames
    obtain ⟨hspared, -⟩ := hall before (b :: rest m) s t u k' m given (act m) v hs hm ht hu hc
      hplace (along_of_forall (fun _ _ => trivial) _ _)
    obtain ⟨t', ht', -⟩ := run_cons_some.mp ht
    obtain ⟨c, hc, hk⟩ := (Option.any_eq_true _ _).mp hb
    rw [decide_eq_true_iff] at hk
    exact (hspared t' ht').1 c.2 (by rw [hc, ← hk])
  · cases hnames

end Versioned

end Remembra
