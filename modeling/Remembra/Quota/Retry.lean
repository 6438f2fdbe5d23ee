import Remembra.Quota.Alone

/-! What a denial says of the time to wait. It is the time until the budget that decides has room again,
    and before that the request is denied. Another budget may still be full then: the request is admitted
    where no other one is. -/

namespace Remembra.Quota
open SlidingWindow

variable {o : RateLimiterOptions} {now : ℤ} {l : InProcess} {key : String}

/-! ### A limiter that may be full of identities -/

/-- The charges of each key are in order, none is later than now, and they are no more than allowed. -/
structure Orderly (limit : ℕ) (now : ℤ) (l : InProcess) : Prop where
  sorted : ∀ key, (l.timestamps key).Pairwise (· ≤ ·)
  past : ∀ key, ∀ timestamp ∈ l.timestamps key, timestamp ≤ now
  few : ∀ key, (l.timestamps key).length ≤ limit

theorem orderly_empty (limit : ℕ) : Orderly limit now .empty :=
  ⟨fun _ => List.Pairwise.nil, fun _ _ h => absurd h List.not_mem_nil, fun _ => Nat.zero_le _⟩

theorem Orderly.later {limit : ℕ} (h : Orderly limit now l) {now' : ℤ} (hle : now ≤ now') :
    Orderly limit now' l :=
  { h with past := fun key timestamp ht => (h.past key timestamp ht).trans hle }

/-- Windows go missing. -/
theorem Orderly.forget {limit : ℕ} (h : Orderly limit now l) {l' : InProcess}
    (hforget : ∀ k, l'.timestamps k = l.timestamps k ∨ l'.timestamps k = []) : Orderly limit now l' := by
  refine ⟨fun k => ?_, fun k => ?_, fun k => ?_⟩ <;> rcases hforget k with heq | heq <;> rw [heq]
  · exact h.sorted k
  · exact List.Pairwise.nil
  · exact h.past k
  · exact fun _ hx => by cases hx
  · exact h.few k
  · exact Nat.zero_le _

variable (o now) in
theorem timestamps_sweep (l : InProcess) (k : String) :
    (sweep o now l).timestamps k = l.timestamps k ∨ (sweep o now l).timestamps k = [] := by
  simp only [InProcess.timestamps, sweep, OrdMap.get_filter]
  rcases l.windows.get k with _ | window
  · exact .inl rfl
  · by_cases hexpired : window.expired o now
    · exact .inr (by simp [Option.filter, hexpired])
    · exact .inl (by simp [Option.filter, hexpired])

theorem timestamps_delete (l : InProcess) (k k' : String) {evicted : ℕ} :
    ({ l with windows := l.windows.delete k, evicted := evicted } : InProcess).timestamps k' =
      if k' = k then [] else l.timestamps k' := by
  rw [InProcess.timestamps, OrdMap.get_delete]
  split <;> rfl

theorem timestamps_evict (l : InProcess) (k : String) :
    (evict o now l).timestamps k = l.timestamps k ∨ (evict o now l).timestamps k = [] := by
  have hsweep := timestamps_sweep o now l k
  rw [evict]
  split
  · exact hsweep
  · split
    · exact hsweep
    · rw [timestamps_delete]
      split
      · exact .inr rfl
      · exact hsweep

theorem timestamps_set (l : InProcess) (k k' : String) (timestamps : List ℤ)
    {lastAccess accessCounter operations : ℕ} : ({ l with
      windows := l.windows.set k ⟨timestamps, lastAccess⟩
      accessCounter := accessCounter
      operations := operations } : InProcess).timestamps k' =
        if k' = k then timestamps else l.timestamps k' := by
  rw [InProcess.timestamps, OrdMap.get_set]
  split <;> rfl

/-- Opening the window of a key leaves its charges as they are. -/
theorem timestamps_openWindow_self : (openWindow o key now l).timestamps key = l.timestamps key := by
  rw [openWindow]
  split
  · rfl
  · rename_i hnone
    dsimp only
    rw [timestamps_set, if_pos rfl, InProcess.timestamps, hnone]
    rfl

theorem timestamps_openWindow (k : String) : (openWindow o key now l).timestamps k = l.timestamps k ∨
    (openWindow o key now l).timestamps k = [] := by
  rw [openWindow]
  split
  · exact .inl rfl
  · dsimp only
    rw [timestamps_set]
    split
    · exact .inr rfl
    · split
      · exact timestamps_evict l k
      · exact .inl rfl

theorem length_result {limit : ℕ} {live : List ℤ} (hlimit : o.limit = limit) (hfew : live.length ≤ limit)
    (charge : Bool) :
    (if charge ∧ (result o live charge now).allowed then live ++ [now] else live).length ≤ limit := by
  split
  · rename_i h
    have hroom : live.length < o.limit := of_decide_eq_true h.2
    rw [List.length_append, List.length_singleton]
    omega
  · exact hfew

/-- The charges of a key after a decision, unless its window is swept: what is young, and the charge that
    is made. The windows of other keys stay or go. -/
theorem Orderly.evaluate {limit : ℕ} (h : Orderly limit now l) (hlimit : o.limit = limit) (charge : Bool) :
    Orderly limit now (evaluate o key charge now l).1 := by
  have hopen : Orderly limit now (openWindow o key now l) := h.forget timestamps_openWindow
  have hlive : ((openWindow o key now l).timestamps key).dropWhile
      (fun timestamp => now - timestamp ≥ o.windowMs) = live (o.windowMs : ℤ) now (l.timestamps key) := by
    rw [timestamps_openWindow_self]
    exact dropWhile_eq_live (h.sorted key)
  have hset : Orderly limit now { openWindow o key now l with
      windows := (openWindow o key now l).windows.set key
        ⟨if charge ∧ (result o (live (o.windowMs : ℤ) now (l.timestamps key)) charge now).allowed then
          live (o.windowMs : ℤ) now (l.timestamps key) ++ [now]
          else live (o.windowMs : ℤ) now (l.timestamps key), (openWindow o key now l).accessCounter⟩
      accessCounter := (openWindow o key now l).accessCounter + 1
      operations := (openWindow o key now l).operations + 1 } := by
    have hsub : (live (o.windowMs : ℤ) now (l.timestamps key)).Sublist (l.timestamps key) :=
      List.filter_sublist
    refine ⟨fun k => ?_, fun k => ?_, fun k => ?_⟩ <;> rw [timestamps_set] <;> split
    · split
      · refine List.pairwise_append.mpr ⟨(h.sorted key).sublist hsub, List.pairwise_singleton _ _, ?_⟩
        intro a ha b hb
        rw [List.mem_singleton.mp hb]
        exact h.past key a (hsub.subset ha)
      · exact (h.sorted key).sublist hsub
    · exact hopen.sorted k
    · intro timestamp ht
      split at ht
      · rcases List.mem_append.mp ht with ht | ht
        · exact h.past key timestamp (hsub.subset ht)
        · exact le_of_eq (List.mem_singleton.mp ht)
      · exact h.past key timestamp (hsub.subset ht)
    · exact hopen.past k
    · exact length_result hlimit (hsub.length_le.trans (h.few key)) charge
    · exact hopen.few k
  rw [Quota.evaluate]
  dsimp only
  rw [hlive]
  split
  · exact hset.forget (timestamps_sweep _ _ _)
  · exact hset

variable (o key) in
/-- A key that is only looked at keeps what is young of its charges. -/
theorem Orderly.check {limit : ℕ} (h : Orderly limit now l) :
    (check o key now l).2 = result o (live (o.windowMs : ℤ) now (l.timestamps key)) false now ∧
      ∀ t, now ≤ t → live (o.windowMs : ℤ) t ((check o key now l).1.timestamps key) =
        live (o.windowMs : ℤ) t (l.timestamps key) := by
  have hlive : ((openWindow o key now l).timestamps key).dropWhile
      (fun timestamp => now - timestamp ≥ o.windowMs) = live (o.windowMs : ℤ) now (l.timestamps key) := by
    rw [timestamps_openWindow_self]
    exact dropWhile_eq_live (h.sorted key)
  rw [Quota.check, Quota.evaluate]
  dsimp only
  rw [hlive]
  refine ⟨rfl, fun t ht => ?_⟩
  simp only [Bool.false_eq_true, false_and, if_false]
  split
  · -- a window is swept when its newest charge is old, and then they all are
    have hsorted := (h.sorted key).filter fun x => decide (now - x < (o.windowMs : ℤ))
    simp only [InProcess.timestamps, sweep, OrdMap.get_filter, OrdMap.get_set_self, Option.filter_some]
    split
    · exact live_live ht
    · rename_i hexpired
      have hold : live (o.windowMs : ℤ) t (Window.timestamps
          ⟨live (o.windowMs : ℤ) now (l.timestamps key), (openWindow o key now l).accessCounter⟩) = [] :=
        Window.live_of_expired hsorted (by simpa [InProcess.timestamps] using hexpired) ht
      change [] = live (o.windowMs : ℤ) t (l.timestamps key)
      exact hold.symm.trans (live_live ht)
  · rw [timestamps_set, if_pos rfl]
    exact live_live ht

namespace QuotaRateLimiter
open Transition

variable {q : QuotaOptions} {w : Windows} {identity : RateLimitIdentity} {ts : List Target}

/-! ### A call that consumes -/

variable (q) in
/-- Every limiter with a policy is in order. -/
def InOrder (now : ℤ) (w : Windows) : Prop :=
  ∀ slot policy, q.policy? slot = some policy → Orderly policy.limit now (w slot)

/-- The limiter of a key could charge it at this time. -/
def HasRoom (now : ℤ) (w : Windows) (t : Target) : Prop :=
  (live (t.policy.windowMs : ℤ) now ((w t.slot).timestamps t.key)).length < t.policy.limit

instance (now : ℤ) (w : Windows) (t : Target) : Decidable (HasRoom now w t) :=
  inferInstanceAs (Decidable (_ < _))

/-- What the limiter of a key answers when it is asked. -/
def answerOf (q : QuotaOptions) (now : ℤ) (w : Windows) (t : Target) : RateLimitResult :=
  { result (q.limiterFor t.policy) (live (t.policy.windowMs : ℤ) now ((w t.slot).timestamps t.key)) false
      now with dimension := some t.slot.reported }

theorem answerOf_allowed {t : Target} : (answerOf q now w t).allowed = true ↔ HasRoom now w t :=
  decide_eq_true_iff

/-- A limiter that is not asked stays as it is. -/
theorem checkAll_other {slot : Slot} (h : ∀ t ∈ ts, t.slot ≠ slot) : (checkAll q now ts w).1 slot = w slot := by
  induction ts generalizing w with
  | nil => rfl
  | cons t ts ih =>
    have hrest : (checkAll q now ts (Function.update w t.slot
        (check (q.limiterFor t.policy) t.key now (w t.slot)).1)).1 slot = _ :=
      ih fun t' ht' => h t' (List.mem_cons_of_mem _ ht')
    exact hrest.trans (Function.update_of_ne (h t (List.mem_cons_self ..)).symm _ _)

/-- Asking the limiters, no limiter twice. -/
theorem checkAll_answers (hw : ∀ t ∈ ts, Orderly t.policy.limit now (w t.slot))
    (hslots : ts.Pairwise fun t t' => t.slot ≠ t'.slot) :
    (checkAll q now ts w).2 = ts.map (answerOf q now w) ∧
      ∀ t ∈ ts, ∀ time, now ≤ time → (HasRoom time (checkAll q now ts w).1 t ↔ HasRoom time w t) := by
  induction ts generalizing w with
  | nil => exact ⟨rfl, by simp⟩
  | cons t ts ih =>
    obtain ⟨hne, hslots⟩ := List.pairwise_cons.mp hslots
    obtain ⟨hresult, hyoung⟩ :=
      (hw t (List.mem_cons_self ..)).check (q.limiterFor t.policy) t.key
    have hsame : ∀ t' ∈ ts, Function.update w t.slot
        (check (q.limiterFor t.policy) t.key now (w t.slot)).1 t'.slot = w t'.slot :=
      fun t' ht' => Function.update_of_ne (hne t' ht').symm _ _
    obtain ⟨hrest, hroom⟩ := ih (w := Function.update w t.slot
      (check (q.limiterFor t.policy) t.key now (w t.slot)).1)
      (fun t' ht' => by rw [hsame t' ht']; exact hw t' (List.mem_cons_of_mem _ ht')) hslots
    refine ⟨?_, List.forall_mem_cons.mpr ⟨fun time htime => ?_, fun t' ht' time htime => ?_⟩⟩
    · simp only [checkAll, List.map_cons, hrest]
      congr 1
      · exact congrArg (fun r : RateLimitResult => { r with dimension := some t.slot.reported }) hresult
      · refine List.map_congr_left fun t' ht' => ?_
        rw [answerOf, answerOf, hsame t' ht']
    · have hhead : (checkAll q now (t :: ts) w).1 t.slot =
          (check (q.limiterFor t.policy) t.key now (w t.slot)).1 :=
        (checkAll_other fun t' ht' => (hne t' ht').symm).trans (Function.update_self ..)
      rw [HasRoom, HasRoom, hhead]
      exact iff_of_eq (congrArg (·.length < _) (hyoung time htime))
    · refine (hroom t' ht' time htime).trans ?_
      rw [HasRoom, HasRoom, hsame t' ht']

theorem policy_of_target {t : Target} (ht : t ∈ targets q identity) : q.policy? t.slot = some t.policy :=
  (mem_targets (List.mem_singleton.mpr rfl : identity ∈ [identity]) ht).1

/-- One limiter is written. -/
theorem InOrder.update (h : InOrder q now w) {slot : Slot} {l : InProcess}
    (hl : ∀ policy, q.policy? slot = some policy → Orderly policy.limit now l) :
    InOrder q now (Function.update w slot l) := by
  intro slot' policy hpolicy
  rcases eq_or_ne slot' slot with rfl | hne
  · rw [Function.update_self]
    exact hl policy hpolicy
  · rw [Function.update_of_ne hne]
    exact h slot' policy hpolicy

theorem InOrder.evaluate (h : InOrder q now w) {t : Target} (ht : q.policy? t.slot = some t.policy)
    (charge : Bool) : InOrder q now (Function.update w t.slot
      (Quota.evaluate (q.limiterFor t.policy) t.key charge now (w t.slot)).1) := by
  refine h.update fun policy hpolicy => ?_
  obtain rfl := Option.some.inj (ht.symm.trans hpolicy)
  exact (h t.slot t.policy ht).evaluate rfl charge

theorem InOrder.reset (h : InOrder q now w) (t : Target) :
    InOrder q now (Function.update w t.slot (Quota.reset t.key (w t.slot))) := by
  refine h.update fun policy hpolicy => (h t.slot policy hpolicy).forget fun k => ?_
  rw [Quota.reset, timestamps_delete]
  split
  · exact .inr rfl
  · exact .inl rfl

theorem InOrder.checkAll (h : InOrder q now w) (hts : ∀ t ∈ ts, q.policy? t.slot = some t.policy) :
    InOrder q now (checkAll q now ts w).1 := by
  induction ts generalizing w with
  | nil => exact h
  | cons t ts ih =>
    exact ih (h.evaluate (hts t (List.mem_cons_self ..)) false) fun t' ht' => hts t' (List.mem_cons_of_mem _ ht')

theorem InOrder.later (h : InOrder q now w) {time : ℤ} (hle : now ≤ time) : InOrder q time w :=
  fun slot policy hpolicy => (h slot policy hpolicy).later hle

/-- The limiters that a request goes through are in order. -/
theorem InOrder.targets (h : InOrder q now w) :
    ∀ t ∈ targets q identity, Orderly t.policy.limit now (w t.slot) :=
  fun t ht => h t.slot t.policy (policy_of_target ht)

/-- A request is admitted when every budget has room. -/
theorem admitted_iff (h : InOrder q now w) :
    Admitted q identity now w ↔ ∀ t ∈ targets q identity, HasRoom now w t := by
  have hdecisions := (checkAll_answers (q := q) h.targets (targets_pairwise identity)).1
  rcases room_or_full q identity (answerOf q now w) with hroom | ⟨before, t, rest, hsplit, hbefore, hfull⟩
  · exact iff_of_true (perform_of_room hdecisions hroom).1 fun t ht => answerOf_allowed.mp (hroom t ht)
  · refine iff_of_false ?_ fun hroom => ?_
    · rintro ⟨r, hr, hallowed⟩
      rw [perform_of_full hdecisions hsplit hbefore hfull] at hr
      obtain rfl := Option.some.inj hr
      rw [hfull] at hallowed
      cases hallowed
    · have ht : t ∈ targets q identity := by simp [hsplit]
      rw [answerOf_allowed.mpr (hroom t ht)] at hfull
      cases hfull

variable (q) in
/-- A full budget with the time it asks to wait: full until then, and with room then. -/
theorem wait_of_full {t : Target} (h : Orderly t.policy.limit now (w t.slot)) (hfull : ¬ HasRoom now w t) :
    (∀ time, now ≤ time → time < now + (answerOf q now w t).retryAfterMs → ¬ HasRoom time w t) ∧
      now ≤ now + (answerOf q now w t).retryAfterMs ∧
        HasRoom (now + (answerOf q now w t).retryAfterMs) w t := by
  have hlimit := t.policy.limit_pos
  have hfew : (live (t.policy.windowMs : ℤ) now ((w t.slot).timestamps t.key)).length ≤ t.policy.limit :=
    (List.length_filter_le ..).trans (h.few t.key)
  have hsorted : (live (t.policy.windowMs : ℤ) now ((w t.slot).timestamps t.key)).Pairwise (· ≤ ·) :=
    (h.sorted t.key).filter _
  have hyoung : ∀ x ∈ live (t.policy.windowMs : ℤ) now ((w t.slot).timestamps t.key),
      now - x < t.policy.windowMs := fun x hx => of_decide_eq_true (List.mem_filter.mp hx).2
  have hlater : ∀ time, now ≤ time → live (t.policy.windowMs : ℤ) time
      (live (t.policy.windowMs : ℤ) now ((w t.slot).timestamps t.key)) =
        live (t.policy.windowMs : ℤ) time ((w t.slot).timestamps t.key) := fun time htime => live_live htime
  have hretry : (answerOf q now w t).retryAfterMs =
      (live (t.policy.windowMs : ℤ) now ((w t.slot).timestamps t.key)).head?.elim 0
        fun oldest => max 0 (oldest + t.policy.windowMs - now) := by
    rw [answerOf, result]
    refine if_neg fun hallowed => hfull ?_
    exact of_decide_eq_true hallowed
  rw [HasRoom] at hfull
  rw [hretry]
  simp only [HasRoom]
  generalize live (t.policy.windowMs : ℤ) now ((w t.slot).timestamps t.key) = young at *
  cases young with
  | nil => simp at hfull; omega
  | cons oldest young =>
    have hold := hyoung oldest (List.mem_cons_self ..)
    simp only [List.head?_cons, Option.elim_some]
    rw [max_eq_right (by omega)]
    refine ⟨fun time htime hbefore => ?_, by omega, ?_⟩
    · -- none of them is older than the oldest
      rw [← hlater time htime, live, List.filter_eq_self.mpr]
      · exact hfull
      · intro x hx
        have hle : oldest ≤ x := by
          rcases List.mem_cons.mp hx with rfl | hx
          · exact le_rfl
          · exact (List.pairwise_cons.mp hsorted).1 x hx
        exact decide_eq_true (by omega)
    · -- the oldest has just grown old
      rw [← hlater _ (by omega), live, List.filter_cons_of_neg (by simp)]
      have hrest := List.length_filter_le
        (fun x => decide (now + (oldest + t.policy.windowMs - now) - x < (t.policy.windowMs : ℤ))) young
      simp only [List.length_cons] at hfew
      omega

/-! ### Runs -/

/-- What a call has still to go through. -/
def Phase.todo : Phase → List Target
  | .checking todo _ | .charging todo _ | .resetting todo => todo
  | .waiting | .returned _ => []

variable (q) in
/-- The limiters stay in order in every run, however many identities they meet. -/
structure Sound (s : State) : Prop where
  order : InOrder q s.now s.windows
  todo : ∀ c ∈ s.calls, ∀ t ∈ c.phase.todo, q.policy? t.slot = some t.policy

theorem sound_init (start : ℤ) : Sound q (init start) :=
  ⟨fun _ _ _ => orderly_empty _, fun _ h => absurd h List.not_mem_nil⟩

theorem todo_begin (op : Op) : ∀ t ∈ (begin q op identity).todo, q.policy? t.slot = some t.policy := by
  cases op with
  | check => exact fun t ht => policy_of_target ht
  | consume => exact fun t ht => policy_of_target ht
  | reset =>
    intro t ht
    have hmem : t ∈ targets q identity := by
      rw [targets, List.mem_append, List.mem_singleton, or_comm]
      exact List.mem_cons.mp ht
    exact policy_of_target hmem

theorem todo_decided (op : Op) (decisions : List RateLimitResult) :
    ∀ t ∈ (decided q op identity decisions).todo, q.policy? t.slot = some t.policy := by
  rw [decided]
  split
  · exact fun t ht => by cases ht
  · split
    · exact fun t ht => policy_of_target ht
    · exact fun t ht => by cases ht

/-- What a turn leaves in order, and what it leaves to do. -/
theorem sound_turn {s u : State} (h : Sound q s) {c : Call} (hc : c ∈ s.calls) {phase : Phase}
    (hturn : turn q s c = some (u, phase)) :
    InOrder q u.now u.windows ∧ ∀ t ∈ phase.todo, q.policy? t.slot = some t.policy := by
  have htodo := h.todo c hc
  rw [turn] at hturn
  split at hturn
  · obtain ⟨-, heq⟩ := Option.ite_none_right_eq_some.mp hturn
    cases heq
    exact ⟨h.order, todo_begin _⟩
  · rename_i hphase
    rw [hphase] at htodo
    cases hturn
    exact ⟨h.order.evaluate (htodo _ (List.mem_cons_self ..)) false,
      fun t ht => htodo t (List.mem_cons_of_mem _ ht)⟩
  · cases hturn
    exact ⟨h.order, todo_decided _ _⟩
  · rename_i hphase
    rw [hphase] at htodo
    cases hturn
    exact ⟨h.order.evaluate (htodo _ (List.mem_cons_self ..)) true,
      fun t ht => htodo t (List.mem_cons_of_mem _ ht)⟩
  · cases hturn
    exact ⟨h.order, fun t ht => by cases ht⟩
  · rename_i hphase
    rw [hphase] at htodo
    cases hturn
    exact ⟨h.order.reset _, fun t ht => htodo t (List.mem_cons_of_mem _ ht)⟩
  · cases hturn
    exact ⟨h.order, fun t ht => by cases ht⟩
  · cases hturn

theorem sound_step {s : State} (a : Action) (u : State) (h : Sound q s) (hstep : step q s a = some u) :
    Sound q u := by
  cases a with
  | arrives name op identity =>
    obtain ⟨-, heq⟩ := Option.ite_none_left_eq_some.mp hstep
    cases heq
    exact ⟨h.order, List.forall_mem_append.mpr ⟨h.todo, by simp [Phase.todo]⟩⟩
  | goesOn name =>
    obtain ⟨c, hfind, hstep⟩ := Option.bind_eq_some_iff.mp hstep
    obtain ⟨⟨v, phase⟩, hturn, rfl⟩ := Option.map_eq_some_iff.mp hstep
    obtain ⟨horder, htodo⟩ := sound_turn h (List.mem_of_find?_eq_some hfind) hturn
    refine ⟨horder, fun c' hc' => ?_⟩
    obtain ⟨b, hb, rfl⟩ := List.mem_map.mp hc'
    rw [(turn_calls hturn).1] at hb
    split
    · exact htodo
    · exact h.todo b hb
  | ticks ms =>
    cases hstep
    exact ⟨h.order.later (by dsimp only; omega), h.todo⟩

/-! ### Waiting -/

/-- What a denial with this result says: the request is denied until the time it names. Then the budget that
    has decided has room, and the request is admitted if every other one has. -/
structure Waits (q : QuotaOptions) (identity : RateLimitIdentity) (now : ℤ) (w : Windows)
    (r : RateLimitResult) : Prop where
  minimal : ∀ time, now ≤ time → time < now + r.retryAfterMs →
    ¬ Admitted q identity time (perform q .consume identity now w).1
  sufficient : ∃ before t rest, targets q identity = before ++ t :: rest ∧
    (∀ b ∈ before, HasRoom now w b) ∧ ¬ HasRoom now w t ∧ r.dimension = some t.slot.reported ∧
      HasRoom (now + r.retryAfterMs) w t ∧
        (Admitted q identity (now + r.retryAfterMs) (perform q .consume identity now w).1 ↔
          ∀ u ∈ before ++ rest, HasRoom (now + r.retryAfterMs) w u)

theorem waits_of_denied (h : InOrder q now w) {r : RateLimitResult}
    (hdenied : (perform q .consume identity now w).2 = some r) (hno : r.allowed = false) :
    Waits q identity now w r := by
  have horderly : ∀ t ∈ targets q identity, Orderly t.policy.limit now (w t.slot) := h.targets
  obtain ⟨hdecisions, hroom⟩ := checkAll_answers (q := q) horderly (targets_pairwise identity)
  rcases room_or_full q identity (answerOf q now w) with hall | ⟨before, t, rest, hsplit, hbefore, hfull⟩
  · obtain ⟨r', hr', hallowed⟩ := (perform_of_room hdecisions hall).1
    obtain rfl := Option.some.inj (hdenied.symm.trans hr')
    rw [hno] at hallowed
    cases hallowed
  have hperform := perform_of_full hdecisions hsplit hbefore hfull
  rw [hperform] at hdenied
  obtain rfl := Option.some.inj hdenied
  have ht : t ∈ targets q identity := by simp [hsplit]
  have hnot : ¬ HasRoom now w t := fun hyes => by
    rw [answerOf_allowed.mpr hyes] at hfull
    cases hfull
  obtain ⟨hwait, hle, hfree⟩ := wait_of_full q (h.targets t ht) hnot
  have hadmitted : ∀ time, now ≤ time →
      (Admitted q identity time (checkAll q now (targets q identity) w).1 ↔
        ∀ u ∈ targets q identity, HasRoom time w u) := by
    intro time htime
    rw [admitted_iff ((h.checkAll fun _ => policy_of_target).later htime)]
    exact forall₂_congr fun u hu => hroom u hu time htime
  have hafter : (perform q .consume identity now w).1 = (checkAll q now (targets q identity) w).1 :=
    congrArg Prod.fst hperform
  refine ⟨fun time htime hearly hyes => ?_, before, t, rest, hsplit,
    fun b hb => answerOf_allowed.mp (hbefore b hb), hnot, rfl, hfree, ?_⟩
  · rw [hafter] at hyes
    exact hwait time htime hearly ((hadmitted time htime).mp hyes t ht)
  · rw [hafter, hadmitted _ hle, hsplit]
    simp only [List.forall_mem_append, List.forall_mem_cons, hfree, true_and]

/-- In every state that is reached, however many identities there are: a request that is denied is denied
    at every time before it has waited as long as the denial says. When it has, the budget that decided has
    room, and the request is admitted if no other budget is full. -/
theorem retry_after {start : ℤ} {as : List Action} {s : State}
    (hrun : run (step q) (init start) as = some s) (identity : RateLimitIdentity) {r : RateLimitResult}
    (hdenied : (perform q .consume identity s.now s.windows).2 = some r) (hno : r.allowed = false) :
    Waits q identity s.now s.windows r :=
  waits_of_denied (reachable_induct (fun _ a t => sound_step a t) (sound_init start) ⟨as, hrun⟩).order
    hdenied hno

/-- One request in ten milliseconds for each organization, one in a hundred for each identity. -/
def twoBudgets : QuotaOptions where
  base := { small.base with windowMs := 100, windowMs_pos := Nat.succ_pos _ }
  policies
    | .organization => some small.base
    | _ => none
  maxIdentities := small.maxIdentities
  maxIdentities_pos := small.maxIdentities_pos

def firstRequest : List Action :=
  .arrives 0 .consume (clientOf "a") :: List.replicate 7 (.goesOn 0)

theorem retry_after_firstRequest : ∃ s r, run (step twoBudgets) (init 0) firstRequest = some s ∧
    (perform twoBudgets .consume (clientOf "a") s.now s.windows).2 = some r ∧ r.allowed = false ∧
      Waits twoBudgets (clientOf "a") s.now s.windows r := by
  obtain ⟨s, r, hrun, hdenied, hno⟩ : ∃ s r, run (step twoBudgets) (init 0) firstRequest = some s ∧
      (perform twoBudgets .consume (clientOf "a") s.now s.windows).2 = some r ∧ r.allowed = false :=
    ⟨_, _, rfl, rfl, rfl⟩
  exact ⟨s, r, hrun, hdenied, hno, retry_after hrun (clientOf "a") hdenied hno⟩

/-- Both budgets are full. The organization's has room again after ten milliseconds, and the request is
    denied by the other one. -/
theorem denied_after_waiting : ∃ s r, run (step twoBudgets) (init 0) firstRequest = some s ∧
    (perform twoBudgets .consume (clientOf "a") s.now s.windows).2 = some r ∧ r.allowed = false ∧
      ¬ Admitted twoBudgets (clientOf "a") (s.now + r.retryAfterMs)
        (perform twoBudgets .consume (clientOf "a") s.now s.windows).1 := by
  refine ⟨_, _, rfl, rfl, rfl, ?_⟩
  rintro ⟨r, hr, hallowed⟩
  cases hr
  cases hallowed

end QuotaRateLimiter

end Remembra.Quota
