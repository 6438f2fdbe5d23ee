import Remembra.Quota.Switching

/-! What a speculative call says over the shared store, next to what the call that charges would say and to
    what the in-process limiter says. It counts a charge whose age is exactly the window, which the charge
    prunes; it never names a time to wait; and whoever is admitted is told of the first budget of the plan,
    not of the tightest. So it tells the truth only of a request that is admitted, with its first budget the
    tightest (`tells_truth_iff`). -/

namespace Remembra.Quota.Speculative
open Transition SlidingWindow SortedSet QuotaRateLimiter Switching

variable (q : QuotaOptions) (keyPrefix : String)

/-- The calls of both limiters, speculative ones as well. -/
inductive Action where
  | acts (action : Switching.Action)
  | check (instanceTag : String) (identity : RateLimitIdentity)

def step (s : Switching.State) : Action → Option Switching.State
  | .acts action => Switching.step q keyPrefix s action
  | .check instanceTag identity => some { s with
      windows := (perform q .check identity s.now s.windows).1
      store := (Redis.check q keyPrefix instanceTag identity s.now s.store).1 }

def Action.By (clients : List RateLimitIdentity) : Action → Prop
  | .acts action => action.By clients
  | .check _ identity => identity ∈ clients

/-- What an answer says of the budget that it reports. -/
def budget (r : RateLimitResult) : ℕ × ℕ × Option RateLimitDimension := (r.limit, r.windowMs, r.dimension)

/-- The budget of a key. -/
def budgetOf (t : Target) : ℕ × ℕ × Option RateLimitDimension :=
  (t.policy.limit, t.policy.windowMs, some t.slot.reported)

/-- `check` answers as `consume` would: the same decision for the same reason, and of a request that is
    admitted both report the budget that the in-process limiter reports. -/
structure TellsTruth (instanceTag : String) (identity : RateLimitIdentity) (s : Switching.State) : Prop where
  allowed : (Redis.check q keyPrefix instanceTag identity s.now s.store).2.allowed =
    (Redis.consume q keyPrefix instanceTag identity s.now s.store).2.allowed
  retryAfterMs : (Redis.check q keyPrefix instanceTag identity s.now s.store).2.retryAfterMs =
    (Redis.consume q keyPrefix instanceTag identity s.now s.store).2.retryAfterMs
  denied : (Redis.consume q keyPrefix instanceTag identity s.now s.store).2.allowed = false →
    (Redis.check q keyPrefix instanceTag identity s.now s.store).2.dimension =
      (Redis.consume q keyPrefix instanceTag identity s.now s.store).2.dimension
  tightest : (Redis.consume q keyPrefix instanceTag identity s.now s.store).2.allowed = true →
    (perform q .check identity s.now s.windows).2.map budget =
        some (budget (Redis.check q keyPrefix instanceTag identity s.now s.store).2) ∧
      (perform q .consume identity s.now s.windows).2.map budget =
        some (budget (Redis.consume q keyPrefix instanceTag identity s.now s.store).2)

/-! ### What the store counts -/

section Counts
variable (now : ℤ) (db : Redis.Db) (t : Target)

/-- The charges from one window ago on. -/
def counted : ℕ := zcount now (now - t.policy.windowMs) (db (redisKey keyPrefix t.slot t.key))

/-- The charges that are younger than the window. -/
def young : ℕ := zcount now (now - t.policy.windowMs + 1) (db (redisKey keyPrefix t.slot t.key))

/-- What a request may still charge there. -/
def remaining : ℕ := t.policy.limit - young keyPrefix now db t

end Counts

/-- The target with the least left, the first of them. -/
def leastOf (left : Target → ℕ) (first : Target) (ts : List Target) : Target :=
  ts.foldl (fun tightest t => if left t < left tightest then t else tightest) first

/-- The tightest budget of a request, ties by precedence. -/
def tightestOf (now : ℤ) (db : Redis.Db) (identity : RateLimitIdentity) : Option Target :=
  (targets q identity).head?.map fun first =>
    leastOf (remaining keyPrefix now db) first (targets q identity)

/-- The tightest of the answers is the answer for the tightest. -/
theorem foldl_answers (answer : Target → RateLimitResult) (ts : List Target) (first : Target) :
    (ts.map answer).foldl (fun tightest decision =>
        if decision.remaining < tightest.remaining then decision else tightest) (answer first) =
      answer (leastOf (fun t => (answer t).remaining) first ts) := by
  induction ts generalizing first with
  | nil => rfl
  | cons t ts ih =>
    rw [List.map_cons, List.foldl_cons, leastOf, List.foldl_cons]
    split
    · exact ih t
    · exact ih first

theorem leastOf_congr {left left' : Target → ℕ} {first : Target} {ts : List Target}
    (hfirst : left first = left' first) (h : ∀ t ∈ ts, left t = left' t) :
    leastOf left first ts = leastOf left' first ts := by
  induction ts generalizing first with
  | nil => rfl
  | cons t ts ih =>
    have ht := h t (List.mem_cons_self ..)
    have hrest : ∀ t' ∈ ts, left t' = left' t' := fun t' ht' => h t' (List.mem_cons_of_mem _ ht')
    rw [leastOf, leastOf, List.foldl_cons, List.foldl_cons, ht, hfirst]
    split
    · exact ih ht hrest
    · exact ih hfirst hrest

variable {q keyPrefix} {clients : List RateLimitIdentity} {now : ℤ} {h : Switching.History} {db : Redis.Db}
  {ts : List Target} {s : Switching.State} {identity : RateLimitIdentity} {w : Windows}

/-! ### The script that only looks -/

theorem check_allows (hall : ∀ t ∈ ts, counted keyPrefix now db t < t.policy.limit) (i : ℕ) (tightest : ℤ) :
    (Redis.quotaCheckScript now db (scriptKeys keyPrefix ts) i tightest).allowed = true ∧
      (Redis.quotaCheckScript now db (scriptKeys keyPrefix ts) i tightest).index = 0 := by
  induction ts generalizing i tightest with
  | nil => exact ⟨rfl, rfl⟩
  | cons t ts ih =>
    have ht := hall t (List.mem_cons_self ..)
    rw [counted] at ht
    rw [scriptKeys, List.map_cons, Redis.quotaCheckScript]
    dsimp only
    rw [if_neg (not_le.mpr ht)]
    exact ih (fun t' ht' => hall t' (List.mem_cons_of_mem _ ht')) _ _

/-- A denial names no time to wait. -/
theorem check_denies {t : Target} (ht : t ∈ ts) (hfull : ¬ counted keyPrefix now db t < t.policy.limit)
    (i : ℕ) (tightest : ℤ) :
    (Redis.quotaCheckScript now db (scriptKeys keyPrefix ts) i tightest).allowed = false ∧
      (Redis.quotaCheckScript now db (scriptKeys keyPrefix ts) i tightest).retryAfterMs = 0 := by
  induction ts generalizing i tightest with
  | nil => cases ht
  | cons u ts ih =>
    rw [scriptKeys, List.map_cons, Redis.quotaCheckScript]
    dsimp only
    split
    · exact ⟨rfl, rfl⟩
    · rename_i hroom
      rcases List.mem_cons.mp ht with rfl | ht
      · exact absurd (not_le.mp hroom) hfull
      · exact ih ht _ _

/-- Young charges are the ones that count for the limit. -/
theorem zcount_young {windowMs : ℤ} {times : List ℤ} {z : Option (SortedSet String ℤ)}
    (hl : Logs windowMs now times z) :
    zcount now (now - windowMs + 1) z = (live windowMs now times).length := by
  rw [← hl.present.live now le_rfl, zcount]
  cases present now z with
  | none => rfl
  | some set =>
    rw [Option.elim_some, OrdMap.size, OrdMap.filter, scores, Option.elim_some, live, List.filter_map,
      List.length_map]
    refine congrArg List.length (List.filter_congr fun e _ => ?_)
    exact decide_eq_decide.mpr (by omega)

theorem young_le_counted (t : Target) : young keyPrefix now db t ≤ counted keyPrefix now db t := by
  rw [young, counted, zcount, zcount]
  cases present now (db (redisKey keyPrefix t.slot t.key)) with
  | none => exact le_rfl
  | some set =>
    rw [Option.elim_some, Option.elim_some, OrdMap.size, OrdMap.size]
    refine List.Sublist.length_le (List.monotone_filter_right _ fun e he => ?_)
    have hyoung := of_decide_eq_true he
    exact decide_eq_true (by omega)

theorem Logged.young_eq (hdb : Logged q keyPrefix now h db) {t : Target} (ht : Known q clients t) :
    young keyPrefix now db t = (live (t.policy.windowMs : ℤ) now (h t.slot t.key)).length :=
  zcount_young (hdb t.slot t.policy ht.policy t.key ht.keyed)

theorem Logged.room_iff (hdb : Logged q keyPrefix now h db) {t : Target} (ht : Known q clients t) :
    Switching.Room now h t ↔ young keyPrefix now db t < t.policy.limit := by
  rw [Switching.Room, Logged.young_eq hdb ht]

/-! ### The answers -/

/-- Whoever is admitted is told of the first budget of the plan. -/
theorem budget_of_first {tag : String} {first : Target} {rest : List Target} {store : Redis.State}
    (hsplit : targets q identity = first :: rest) {charge : Bool}
    (hallowed : (Redis.evaluate q keyPrefix tag identity charge now store).2.allowed = true)
    (hindex : charge = false →
      (Redis.quotaCheckScript now store.db (scriptKeys keyPrefix (targets q identity)) 1 (-1)).index = 0) :
    budget (Redis.evaluate q keyPrefix tag identity charge now store).2 = budgetOf first := by
  have hfirst : (Redis.plan q keyPrefix identity)[0]? = some (toEntry keyPrefix first) := by
    rw [plan_eq, hsplit]
    rfl
  cases charge with
  | false =>
    simp only [budget, Redis.evaluate, keys_plan, hindex rfl, Bool.false_eq_true, if_false,
      Nat.zero_sub, hfirst]
    rfl
  | true =>
    simp only [Redis.evaluate, keys_plan, if_true, Redis.quotaScript] at hallowed
    simp only [budget, Redis.evaluate, keys_plan, if_true, Redis.quotaScript]
    rcases hdecide : Redis.decide now (scriptKeys keyPrefix (targets q identity)) 1 store.db with
      ⟨after, _ | ⟨i, retry⟩⟩
    · simp only [Nat.zero_sub, hfirst]
      rfl
    · rw [hdecide] at hallowed
      cases hallowed

/-- The in-process limiter reports the tightest budget. -/
theorem own_report (hw : Tracked q clients now h w) (hdb : Logged q keyPrefix now h db)
    (hfew : clients.length < q.maxIdentities) (hc : identity ∈ clients)
    (hroom : ∀ t ∈ targets q identity, Switching.Room now h t) (charge : Bool) :
    (evaluateLocked q identity charge now w).2.map budget =
      (tightestOf q keyPrefix now db identity).map budgetOf := by
  have hknown : ∀ t ∈ targets q identity, Known q clients t := fun t ht => known_of_mem hc ht
  have hdecisions := (checkAll_tracked hfew hw hknown).1
  have hleft : ∀ t ∈ targets q identity, (answer q now h t).remaining = remaining keyPrefix now db t := by
    intro t ht
    rw [remaining, Logged.young_eq hdb (hknown t ht)]
    rfl
  rw [evaluateLocked_of_room hdecisions (fun t ht => answer_allowed.mpr (hroom t ht)) charge]
  obtain ⟨first, rest, hsplit⟩ := List.exists_cons_of_ne_nil (targets_ne_nil (q := q) identity)
  have hfirst : first ∈ targets q identity := by rw [hsplit]; exact List.mem_cons_self ..
  have htightest := leastOf_congr (hleft first hfirst) hleft
  rw [tightestOf, report, hsplit, List.map_cons, List.head?_cons, List.head?_cons, Option.map_some,
    Option.map_some, Option.map_some, Option.map_some, ← List.map_cons, foldl_answers, ← hsplit, htightest]
  rfl

/-! ### Runs -/

theorem sim_step (hfew : clients.length < q.maxIdentities) (a : Action) (t : Switching.State)
    (hs : Sim q keyPrefix clients s) (ha : a.By clients) (hstep : step q keyPrefix s a = some t) :
    Sim q keyPrefix clients t := by
  cases a with
  | acts action =>
    cases action with
    | consume tag identity => exact consume_sim hfew ha hs tag hstep
    | reset identity => exact reset_sim ha hs hstep
    | ticks ms => exact ticks_sim hs hstep
  | check tag identity =>
    obtain rfl := Option.some.inj hstep
    obtain ⟨h, hw, hdb⟩ := hs.history
    have hchecked := (checkAll_tracked hfew hw
      (fun t (ht : t ∈ targets q identity) => known_of_mem ha ht)).2
    refine ⟨hs.now, ⟨h, ?_, hdb⟩, fun key m hm => ?_, hs.same⟩
    · have hwindows : (perform q .check identity s.now s.windows).1 =
          (checkAll q s.now (targets q identity) s.windows).1 := by
        rw [perform, evaluateLocked]
        dsimp only
        split <;> rfl
      dsimp only
      rw [hwindows]
      exact hchecked
    · obtain ⟨tag', n, time, j, rfl, hn⟩ := hs.made key m hm
      refine ⟨tag', n, time, j, rfl, ?_⟩
      change n ≤ Function.update s.store.sequence tag (s.store.sequence tag + 1) tag'
      rcases eq_or_ne tag' tag with rfl | hne
      · rw [Function.update_self]
        exact Nat.le_succ_of_le hn
      · rwa [Function.update_of_ne hne]

/-- What the call that charges answers, by whether every budget has room. -/
theorem consume_answer (hs : Sim q keyPrefix clients s) (hc : identity ∈ clients) (tag : String) :
    ((Redis.consume q keyPrefix tag identity s.now s.store).2.allowed = true ↔
      ∀ t ∈ targets q identity, young keyPrefix s.now s.store.db t < t.policy.limit) ∧
    ((Redis.consume q keyPrefix tag identity s.now s.store).2.allowed = false →
      0 < (Redis.consume q keyPrefix tag identity s.now s.store).2.retryAfterMs) := by
  obtain ⟨h, hw, hdb⟩ := hs.history
  have hts : ∀ t ∈ targets q identity, Known q clients t := fun t ht => known_of_mem hc ht
  have hnamed : Named s.store.sequence
      (Redis.member tag (s.store.sequence tag + 1) s.now) 1 s.store.db :=
    fun key m hm => .inl (hs.made key m hm)
  obtain ⟨-, -, hfound⟩ := decide_logged hdb hnamed hts 1
  rcases hdecide : Redis.decide s.now (scriptKeys keyPrefix (targets q identity)) 1 s.store.db with
    ⟨db, found⟩
  rw [hdecide] at hfound
  rcases hfound with ⟨hroom, hnone⟩ | ⟨before, u, after, hsplit, hbefore, hfull, hsome⟩
  · obtain rfl : found = none := hnone
    have hallowed := (shared_charges hdecide tag).2
    refine ⟨iff_of_true hallowed fun t ht => (Logged.room_iff hdb (hts t ht)).mp (hroom t ht), fun hno => ?_⟩
    rw [hallowed] at hno
    cases hno
  · obtain rfl : found = _ := hsome
    have hu : u ∈ targets q identity := by simp [hsplit]
    rw [shared_denies hdecide hsplit tag]
    refine ⟨iff_of_false Bool.false_ne_true fun hroom =>
      hfull ((Logged.room_iff hdb (hts u hu)).mpr (hroom u hu)), fun _ => ?_⟩
    have hpos : 0 < (result (q.limiterFor u.policy)
        (live (u.policy.windowMs : ℤ) s.now (h u.slot u.key)) false s.now).retryAfterMs :=
      retry_pos (fun x hx => of_decide_eq_true (List.mem_filter.mp hx).2) hfull
    exact hpos

variable (q keyPrefix) in
/-- What the speculative call answers, by whether every budget has room with the charges of one window
    ago. -/
theorem check_answer (s : Switching.State) (identity : RateLimitIdentity) (tag : String) :
    ((Redis.check q keyPrefix tag identity s.now s.store).2.allowed = true ↔
      ∀ t ∈ targets q identity, counted keyPrefix s.now s.store.db t < t.policy.limit) ∧
    (Redis.check q keyPrefix tag identity s.now s.store).2.retryAfterMs = 0 := by
  have hsame : (Redis.check q keyPrefix tag identity s.now s.store).2.allowed =
      (Redis.quotaCheckScript s.now s.store.db (scriptKeys keyPrefix (targets q identity)) 1 (-1)).allowed := by
    simp only [Redis.check, Redis.evaluate, keys_plan, Bool.false_eq_true, if_false]
  have hretry : (Redis.check q keyPrefix tag identity s.now s.store).2.retryAfterMs =
      if (Redis.quotaCheckScript s.now s.store.db (scriptKeys keyPrefix (targets q identity)) 1 (-1)).allowed
        then 0 else (Redis.quotaCheckScript s.now s.store.db
          (scriptKeys keyPrefix (targets q identity)) 1 (-1)).retryAfterMs := by
    simp only [Redis.check, Redis.evaluate, keys_plan, Bool.false_eq_true, if_false]
  rw [hsame, hretry]
  by_cases hall : ∀ t ∈ targets q identity, counted keyPrefix s.now s.store.db t < t.policy.limit
  · obtain ⟨hallowed, -⟩ := check_allows hall 1 (-1)
    exact ⟨iff_of_true hallowed hall, if_pos hallowed⟩
  · obtain ⟨t, ht, hfull⟩ : ∃ t ∈ targets q identity,
        ¬ counted keyPrefix s.now s.store.db t < t.policy.limit := by
      push Not at hall
      exact hall.imp fun t ht => ⟨ht.1, not_lt.mpr ht.2⟩
    obtain ⟨hdenied, hzero⟩ := check_denies ht hfull 1 (-1)
    rw [hdenied]
    exact ⟨iff_of_false Bool.false_ne_true hall, hzero⟩

theorem tells_truth_of_sim (hfew : clients.length < q.maxIdentities) (hs : Sim q keyPrefix clients s)
    (hc : identity ∈ clients) (tag : String) : TellsTruth q keyPrefix tag identity s ↔
      (∀ t ∈ targets q identity, counted keyPrefix s.now s.store.db t < t.policy.limit) ∧
        (tightestOf q keyPrefix s.now s.store.db identity).map budgetOf =
          (targets q identity).head?.map budgetOf := by
  obtain ⟨hconsume, hwait⟩ := consume_answer hs hc tag
  obtain ⟨hcheck, hzero⟩ := check_answer q keyPrefix s identity tag
  obtain ⟨first, rest, hsplit⟩ := List.exists_cons_of_ne_nil (targets_ne_nil (q := q) identity)
  -- where the speculative call admits, everything is decided but the budget that is reported
  have hroom : (∀ t ∈ targets q identity, counted keyPrefix s.now s.store.db t < t.policy.limit) →
      (TellsTruth q keyPrefix tag identity s ↔ (tightestOf q keyPrefix s.now s.store.db identity).map budgetOf =
        (targets q identity).head?.map budgetOf) := by
    intro hall
    have hyes := hcheck.mpr hall
    have hcharged := hconsume.mpr fun t ht => lt_of_le_of_lt (young_le_counted t) (hall t ht)
    obtain ⟨h, hw, hdb⟩ := hs.history
    have hrooms : ∀ t ∈ targets q identity, Switching.Room s.now h t := fun t ht =>
      (Logged.room_iff hdb (known_of_mem hc ht)).mpr (hconsume.mp hcharged t ht)
    have hown : ∀ charge, (evaluateLocked q identity charge s.now s.windows).2.map budget =
        (tightestOf q keyPrefix s.now s.store.db identity).map budgetOf := own_report hw hdb hfew hc hrooms
    have hlooked : budget (Redis.check q keyPrefix tag identity s.now s.store).2 = budgetOf first :=
      budget_of_first hsplit hyes fun _ => (check_allows hall 1 (-1)).2
    have htaken : budget (Redis.consume q keyPrefix tag identity s.now s.store).2 = budgetOf first :=
      budget_of_first hsplit hcharged (by rintro ⟨⟩)
    rw [hsplit, List.head?_cons, Option.map_some]
    constructor
    · intro htruth
      obtain ⟨htight, -⟩ := htruth.tightest hcharged
      rw [hlooked] at htight
      exact (hown false).symm.trans htight
    · intro htight
      refine ⟨hyes.trans hcharged.symm, ?_, fun hno => ?_, fun _ => ⟨?_, ?_⟩⟩
      · rw [hzero, Redis.consume, Redis.evaluate]
        exact (if_pos hcharged).symm
      · rw [hcharged] at hno
        cases hno
      · rw [hlooked]
        exact (hown false).trans htight
      · rw [htaken]
        exact (hown true).trans htight
  constructor
  · intro htruth
    -- a denial would have to name a time to wait
    have hyes : (Redis.consume q keyPrefix tag identity s.now s.store).2.allowed = true := by
      by_contra hno
      have hpos := hwait (Bool.eq_false_iff.mpr hno)
      rw [← htruth.retryAfterMs, hzero] at hpos
      exact absurd hpos (lt_irrefl 0)
    have hall := hcheck.mp (htruth.allowed.trans hyes)
    exact ⟨hall, (hroom hall).mp htruth⟩
  · rintro ⟨hall, htight⟩
    exact (hroom hall).mpr htight

/-- A client that has used up its budget. -/
def usedUp : List Action := [.acts (.consume "x" (clientOf "a")), .acts (.ticks 1)]

end Remembra.Quota.Speculative
