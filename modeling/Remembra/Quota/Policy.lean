import Remembra.Quota.RateLimiter

/-! Quota policies: a base budget for every identity, and budgets for the dimensions a request carries.
    A request is answered over the keys of its `targets`, the configured dimensions it carries in the
    declared order and the base last. -/

namespace Remembra.Quota

/-- A policy that passes `assertPolicy`. -/
structure QuotaPolicy where
  limit : ℕ
  windowMs : ℕ
  limit_pos : 0 < limit
  windowMs_pos : 0 < windowMs

structure QuotaOptions where
  base : QuotaPolicy
  policies : RateLimitDimension → Option QuotaPolicy
  maxIdentities : ℕ
  maxIdentities_pos : 0 < maxIdentities

/-- A limiter among `windows`. -/
inductive Slot where
  | base
  | dimension (d : RateLimitDimension)
  deriving DecidableEq

/-- A key of one of the limiters. -/
structure Target where
  slot : Slot
  policy : QuotaPolicy
  key : String

namespace QuotaOptions

variable (q : QuotaOptions)

def limiterFor (policy : QuotaPolicy) : RateLimiterOptions where
  limit := policy.limit
  windowMs := policy.windowMs
  maxIdentities := q.maxIdentities
  sweepEvery := defaultSweepEvery
  limit_pos := policy.limit_pos
  windowMs_pos := policy.windowMs_pos
  maxIdentities_pos := q.maxIdentities_pos
  sweepEvery_pos := by decide

/-- The declared order, with the policies. -/
def order : List (RateLimitDimension × QuotaPolicy) :=
  rateLimitDimensions.filterMap fun d => (q.policies d).map (d, ·)

def policy? : Slot → Option QuotaPolicy
  | .base => some q.base
  | .dimension d => q.policies d

end QuotaOptions

/-- The key charged for a dimension. -/
def charged (identity : RateLimitIdentity) (d : RateLimitDimension) : List String :=
  match identity.dimensions d with
  | none => []
  | some value => [d.name ++ "=" ++ value]

variable (q : QuotaOptions)

/-- The keys of the dimensions with a policy. -/
def dimensionTargets (identity : RateLimitIdentity) : List Target :=
  q.order.flatMap fun (d, policy) => (charged identity d).map (⟨.dimension d, policy, ·⟩)

def baseTarget (identity : RateLimitIdentity) : Target := ⟨.base, q.base, identity.key⟩

/-- What `evaluateLocked` goes through, twice when it charges. -/
def targets (identity : RateLimitIdentity) : List Target :=
  dimensionTargets q identity ++ [baseTarget q identity]

/-- The dimension a decision is reported under. -/
def Slot.reported : Slot → RateLimitDimension
  | .base => .global
  | .dimension d => d

/-- The tightest budget, the first of them by precedence. -/
def report (decisions : List RateLimitResult) (charge : Bool) : Option RateLimitResult :=
  decisions.head?.map fun first =>
    let tightest := decisions.foldl
      (fun tightest decision => if decision.remaining < tightest.remaining then decision else tightest)
      first
    { tightest with remaining := tightest.remaining - if charge then 1 else 0 }

/-- The keys that clients may be charged under in a limiter. -/
def keysOf (clients : List RateLimitIdentity) : Slot → List String
  | .base => clients.map (·.key)
  | .dimension d => clients.flatMap (charged · d)

theorem charged_length_le (identity : RateLimitIdentity) (d : RateLimitDimension) :
    (charged identity d).length ≤ 1 := by
  rw [charged]
  split <;> simp

theorem keysOf_length_le (clients : List RateLimitIdentity) (slot : Slot) :
    (keysOf clients slot).length ≤ clients.length := by
  cases slot with
  | base => exact le_of_eq (List.length_map ..)
  | dimension d =>
    induction clients with
    | nil => exact le_rfl
    | cons identity clients ih =>
      have hone := charged_length_le identity d
      simp only [keysOf, List.flatMap_cons, List.length_append, List.length_cons] at ih ⊢
      omega

variable {q}

theorem mem_dimensionTargets {identity : RateLimitIdentity} {t : Target}
    (h : t ∈ dimensionTargets q identity) : ∃ d, t.slot = .dimension d ∧
      q.policies d = some t.policy ∧ t.key ∈ charged identity d := by
  obtain ⟨⟨d, policy⟩, hd, ht⟩ := List.mem_flatMap.mp h
  obtain ⟨d', -, hpolicy⟩ := List.mem_filterMap.mp hd
  obtain ⟨policy', hp, heq⟩ := Option.map_eq_some_iff.mp hpolicy
  obtain ⟨rfl, rfl⟩ := Prod.mk.inj heq
  obtain ⟨key, hkey, rfl⟩ := List.mem_map.mp ht
  exact ⟨d', rfl, hp, hkey⟩

theorem mem_targets {clients : List RateLimitIdentity} {identity : RateLimitIdentity}
    (hc : identity ∈ clients) {t : Target} (h : t ∈ targets q identity) :
    q.policy? t.slot = some t.policy ∧ t.key ∈ keysOf clients t.slot := by
  rcases List.mem_append.mp h with h | h
  · obtain ⟨d, hslot, hpolicy, hkey⟩ := mem_dimensionTargets h
    rw [hslot]
    exact ⟨hpolicy, List.mem_flatMap.mpr ⟨identity, hc, hkey⟩⟩
  · rw [List.mem_singleton.mp h]
    exact ⟨rfl, List.mem_map.mpr ⟨identity, hc, rfl⟩⟩

/-- No limiter is asked twice for one request. -/
theorem targets_pairwise (identity : RateLimitIdentity) :
    (targets q identity).Pairwise fun t t' => t.slot ≠ t'.slot := by
  refine List.pairwise_append.mpr ⟨?_, List.pairwise_singleton _ _, fun t ht t' ht' => ?_⟩
  · refine List.pairwise_flatMap.mpr ⟨fun ⟨d, policy⟩ _ => ?_, ?_⟩
    · change ((charged identity d).map _).Pairwise _
      rw [charged]
      split <;> simp
    · have hnodup : rateLimitDimensions.Pairwise (· ≠ ·) := by decide
      refine List.pairwise_filterMap.mpr (hnodup.imp fun hne => ?_)
      intro p hp p' hp' t ht t' ht'
      obtain ⟨policy, -, rfl⟩ := Option.map_eq_some_iff.mp hp
      obtain ⟨policy', -, rfl⟩ := Option.map_eq_some_iff.mp hp'
      obtain ⟨key, -, rfl⟩ := List.mem_map.mp ht
      obtain ⟨key', -, rfl⟩ := List.mem_map.mp ht'
      exact fun heq => hne (Slot.dimension.inj heq)
  · obtain ⟨d, hslot, -⟩ := mem_dimensionTargets ht
    rw [List.mem_singleton.mp ht', hslot]
    exact Slot.noConfusion

/-- A decision is reported as it was made, but for what remains. -/
theorem report_allowed {decisions : List RateLimitResult} (hne : decisions ≠ [])
    (hall : ∀ decision ∈ decisions, decision.allowed = true) (charge : Bool) :
    ∃ r, report decisions charge = some r ∧ r.allowed = true := by
  have hfold : ∀ (ds : List RateLimitResult) (first : RateLimitResult), first.allowed = true →
      (∀ d ∈ ds, d.allowed = true) → (ds.foldl (fun tightest decision =>
        if decision.remaining < tightest.remaining then decision else tightest)
          first).allowed = true := by
    intro ds
    induction ds with
    | nil => exact fun first h _ => h
    | cons d ds ih =>
      intro first hfirst hds
      refine ih _ ?_ fun e he => hds e (List.mem_cons_of_mem _ he)
      dsimp only
      split
      · exact hds d (List.mem_cons_self ..)
      · exact hfirst
  obtain ⟨first, rest, rfl⟩ := List.exists_cons_of_ne_nil hne
  exact ⟨_, rfl, hfold _ _ (hall first (List.mem_cons_self ..)) hall⟩

end Remembra.Quota
