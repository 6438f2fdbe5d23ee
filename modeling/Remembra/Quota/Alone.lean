import Remembra.Quota.Enforcement

/-! A call of the quota limiter that meets no other: the clock stands still and nothing arrives while it
    goes through the limiters. What it does is a function of the limiters and the clock, and a run of the
    machine in which the call goes on without interruption computes that function (`alone`). So calls
    that are made one after another compute the functions in turn (`in_turn`). -/

namespace Remembra.Quota.QuotaRateLimiter
open Transition

variable (q : QuotaOptions)

abbrev Windows := Slot → InProcess

/-- The first pass over the keys of a request. -/
def checkAll (now : ℤ) : List Target → Windows → Windows × List RateLimitResult
  | [], w => (w, [])
  | t :: ts, w =>
    let (l, r) := check (q.limiterFor t.policy) t.key now (w t.slot)
    let (w, decisions) := checkAll now ts (Function.update w t.slot l)
    (w, { r with dimension := some t.slot.reported } :: decisions)

/-- The second pass. -/
def consumeAll (now : ℤ) : List Target → Windows → Windows
  | [], w => w
  | t :: ts, w =>
    consumeAll now ts
      (Function.update w t.slot (consume (q.limiterFor t.policy) t.key now (w t.slot)).1)

def resetAll : List Target → Windows → Windows
  | [], w => w
  | t :: ts, w => resetAll ts (Function.update w t.slot (reset t.key (w t.slot)))

/-- `evaluateLocked` -/
def evaluateLocked (identity : RateLimitIdentity) (charge : Bool) (now : ℤ) (w : Windows) :
    Windows × Option RateLimitResult :=
  let (w, decisions) := checkAll q now (targets q identity) w
  match decisions.find? fun decision => ¬ decision.allowed with
  | some denial => (w, some denial)
  | none =>
    if charge then (consumeAll q now (targets q identity) w, report decisions true)
    else (w, report decisions false)

def resetLocked (identity : RateLimitIdentity) (w : Windows) : Windows :=
  resetAll (baseTarget q identity :: dimensionTargets q identity) w

/-- A call, from the limiters it finds to those it leaves and its result. -/
def perform (op : Op) (identity : RateLimitIdentity) (now : ℤ) (w : Windows) :
    Windows × Option RateLimitResult :=
  match op with
  | .check => evaluateLocked q identity false now w
  | .consume => evaluateLocked q identity true now w
  | .reset => (resetLocked q identity w, none)

/-! ### The machine performs it -/

/-- One call goes on, any number of times, and nothing else happens. -/
def GoesOn (name : ℕ) : State → State → Prop :=
  Relation.ReflTransGen fun s t => step q s (.goesOn name) = some t

variable {q} {name : ℕ} {s t u : State}

theorem GoesOn.run (h : GoesOn q name s t) :
    ∃ n, Transition.run (step q) s (List.replicate n (.goesOn name)) = some t := by
  induction h using Relation.ReflTransGen.head_induction_on with
  | refl => exact ⟨0, rfl⟩
  | head hstep _ ih =>
    obtain ⟨n, hn⟩ := ih
    exact ⟨n + 1, run_cons_some.mpr ⟨_, hstep, hn⟩⟩

/-- Every call before the last has been released, and none has its name. -/
structure Over (name : ℕ) (before : List Call) : Prop where
  released : ∀ b ∈ before, b.released = true
  ne : ∀ b ∈ before, b.name ≠ name

variable {before : List Call} {op : Op} {identity : RateLimitIdentity}

theorem Over.previous (h : Over name before) (c : Call) (hc : c.name = name) :
    (previous c.name (before ++ [c])).all (·.released) = true := by
  have hne : ∀ b ∈ before, b.name ≠ c.name := fun b hb => hc ▸ h.ne b hb
  rw [QuotaRateLimiter.previous, takeWhile_names hne]
  exact (Option.all_eq_true _ _).mpr fun last hlast => h.released last (List.mem_of_getLast? hlast)

/-- One turn of the last call. -/
theorem goesOn_turn (h : Over name before) {w w' : Windows} {now : ℤ} {charges charges' : List Charge}
    {phase phase' : Phase} (hturn : turn q
      ⟨w, now, before ++ [⟨name, op, identity, phase⟩], charges⟩ ⟨name, op, identity, phase⟩ = some
        (⟨w', now, before ++ [⟨name, op, identity, phase⟩], charges'⟩, phase')) :
    step q ⟨w, now, before ++ [⟨name, op, identity, phase⟩], charges⟩ (.goesOn name) =
      some ⟨w', now, before ++ [⟨name, op, identity, phase'⟩], charges'⟩ := by
  have hfind : (before ++ [(⟨name, op, identity, phase⟩ : Call)]).find? (·.name = name) =
      some ⟨name, op, identity, phase⟩ :=
    List.find?_eq_some_iff_append.mpr ⟨by simp, before, [], rfl, by simpa using h.ne⟩
  have hset : (before ++ [(⟨name, op, identity, phase⟩ : Call)]).map
      (fun c => if c.name = name then { c with phase := phase' } else c) =
        before ++ [⟨name, op, identity, phase'⟩] := by
    rw [List.map_append, List.map_singleton, if_pos rfl]
    congr 1
    exact (List.map_congr_left fun b hb => if_neg (h.ne b hb)).trans (List.map_id _)
  simp only [step, hfind, Option.bind_some, hturn, Option.map_some, State.setPhase, hset]

/-- The first pass of the last call. -/
theorem goesOn_checking (op : Op) (identity : RateLimitIdentity) (h : Over name before) (w : Windows)
    (now : ℤ) (charges : List Charge) (todo : List Target) (decisions : List RateLimitResult) : GoesOn q name
      ⟨w, now, before ++ [⟨name, op, identity, .checking todo decisions⟩], charges⟩
      ⟨(checkAll q now todo w).1, now, before ++ [⟨name, op, identity,
        .checking [] (decisions ++ (checkAll q now todo w).2)⟩], charges⟩ := by
  induction todo generalizing w decisions with
  | nil =>
    rw [checkAll, List.append_nil]
    exact .refl
  | cons t todo ih =>
    refine .head (goesOn_turn h rfl) ?_
    have hrest := ih (Function.update w t.slot
      (check (q.limiterFor t.policy) t.key now (w t.slot)).1) (decisions ++
        [{ (check (q.limiterFor t.policy) t.key now (w t.slot)).2 with
          dimension := some t.slot.reported }])
    rw [List.append_assoc] at hrest
    exact hrest

/-- The second pass, whatever is charged. -/
theorem goesOn_charging (op : Op) (identity : RateLimitIdentity) (h : Over name before) (w : Windows)
    (now : ℤ) (charges : List Charge) (todo : List Target) (decisions : List RateLimitResult) : ∃ charges', GoesOn q name
      ⟨w, now, before ++ [⟨name, op, identity, .charging todo decisions⟩], charges⟩
      ⟨consumeAll q now todo w, now, before ++ [⟨name, op, identity, .charging [] decisions⟩],
        charges'⟩ := by
  induction todo generalizing w charges with
  | nil => exact ⟨charges, .refl⟩
  | cons t todo ih =>
    obtain ⟨charges', hrest⟩ := ih (Function.update w t.slot
      (consume (q.limiterFor t.policy) t.key now (w t.slot)).1)
        (if (consume (q.limiterFor t.policy) t.key now (w t.slot)).2.allowed
          then charges ++ [⟨name, t.slot, t.key, now⟩] else charges)
    exact ⟨charges', .head (goesOn_turn h rfl) hrest⟩

theorem goesOn_resetting (h : Over name before) (w : Windows) (now : ℤ) (charges : List Charge)
    (todo : List Target) : GoesOn q name
      ⟨w, now, before ++ [⟨name, op, identity, .resetting todo⟩], charges⟩
      ⟨resetAll todo w, now, before ++ [⟨name, op, identity, .resetting []⟩], charges⟩ := by
  induction todo generalizing w with
  | nil => exact .refl
  | cons t todo ih => exact .head (goesOn_turn h rfl) (ih _)

/-- The two passes of a call that checks or consumes. -/
theorem goesOn_evaluate (h : Over name before) (w : Windows) (now : ℤ) (charges : List Charge)
    {charge : Bool} (hop : charge = true ↔ op = .consume) : ∃ charges', GoesOn q name
      ⟨w, now, before ++ [⟨name, op, identity, .checking (targets q identity) []⟩], charges⟩
      ⟨(evaluateLocked q identity charge now w).1, now, before ++
        [⟨name, op, identity, .returned (evaluateLocked q identity charge now w).2⟩], charges'⟩ := by
  have hchecked : GoesOn q name _ _ :=
    goesOn_checking op identity h w now charges (targets q identity) []
  rw [List.nil_append] at hchecked
  rw [evaluateLocked]
  rcases hck : checkAll q now (targets q identity) w with ⟨w', decisions⟩
  rw [hck] at hchecked
  dsimp only
  have hdecided : step q ⟨w', now, before ++ [⟨name, op, identity, .checking [] decisions⟩], charges⟩
      (.goesOn name) = some
        ⟨w', now, before ++ [⟨name, op, identity, decided q op identity decisions⟩], charges⟩ :=
    goesOn_turn h rfl
  have hnext := hchecked.tail hdecided
  rw [decided] at hnext
  rcases hfind : decisions.find? fun decision => ¬ decision.allowed with _ | denial
  · rw [hfind] at hnext
    simp only [hfind]
    cases charge with
    | true =>
      rw [if_pos (hop.mp rfl)] at hnext
      obtain ⟨charges', hcharged⟩ := goesOn_charging op identity h w' now charges
        (targets q identity) decisions
      exact ⟨charges', (hnext.trans hcharged).tail (goesOn_turn h rfl)⟩
    | false =>
      rw [if_neg fun hc => by cases hop.mpr hc] at hnext
      exact ⟨charges, hnext⟩
  · rw [hfind] at hnext
    simp only [hfind]
    exact ⟨charges, hnext⟩

/-- A call that arrives when every other has been released, and goes on alone, performs its operation on
    the limiters. -/
theorem alone (hover : Over name s.calls) (op : Op) (identity : RateLimitIdentity) :
    ∃ t n, Transition.run (step q) s
        (.arrives name op identity :: List.replicate n (.goesOn name)) = some t ∧
      t.windows = (perform q op identity s.now s.windows).1 ∧ t.now = s.now ∧
      t.calls = s.calls ++
        [⟨name, op, identity, .returned (perform q op identity s.now s.windows).2⟩] := by
  obtain ⟨w, now, before, charges⟩ := s
  have hnew : name ∉ before.map (·.name) := by
    intro hm
    obtain ⟨b, hb, hname⟩ := List.mem_map.mp hm
    exact hover.ne b hb hname
  have harrives : step q ⟨w, now, before, charges⟩ (.arrives name op identity) =
      some ⟨w, now, before ++ [⟨name, op, identity, .waiting⟩], charges⟩ := if_neg hnew
  have hbegins : step q ⟨w, now, before ++ [⟨name, op, identity, .waiting⟩], charges⟩
      (.goesOn name) =
        some ⟨w, now, before ++ [⟨name, op, identity, begin q op identity⟩], charges⟩ :=
    goesOn_turn hover (if_pos (hover.previous _ rfl))
  obtain ⟨charges', hgoes⟩ : ∃ charges', GoesOn q name
      ⟨w, now, before ++ [⟨name, op, identity, begin q op identity⟩], charges⟩
      ⟨(perform q op identity now w).1, now, before ++
        [⟨name, op, identity, .returned (perform q op identity now w).2⟩], charges'⟩ := by
    cases op with
    | check => exact goesOn_evaluate hover w now charges (by simp)
    | consume => exact goesOn_evaluate hover w now charges (by simp)
    | reset =>
      exact ⟨charges, (goesOn_resetting hover w now charges _).tail (goesOn_turn hover rfl)⟩
  obtain ⟨n, hn⟩ := GoesOn.run (.head hbegins hgoes)
  exact ⟨_, n, run_cons_some.mpr ⟨_, harrives, hn⟩, rfl, rfl, rfl⟩

/-- A call made some time after the one before it has returned. -/
structure Arrival where
  waits : ℕ
  name : ℕ
  op : Op
  identity : RateLimitIdentity

/-- The limiters after calls made in turn, and the calls with what they return. -/
def performAll (q : QuotaOptions) (now : ℤ) : List Arrival → Windows → Windows × List Call
  | [], w => (w, [])
  | c :: rest, w =>
    let (w, result) := perform q c.op c.identity (now + c.waits) w
    let (w, calls) := performAll q (now + c.waits) rest w
    (w, ⟨c.name, c.op, c.identity, .returned result⟩ :: calls)

/-- From any state in which every call has been released, the machine can make any calls in turn, and
    they compute the operations one after another. -/
theorem in_turn (arrivals : List Arrival) (hreleased : ∀ c ∈ s.calls, c.released = true)
    (hnames : (s.calls.map (·.name) ++ arrivals.map (·.name)).Nodup) :
    ∃ as t, Transition.run (step q) s as = some t ∧
      t.windows = (performAll q s.now arrivals s.windows).1 ∧
      t.calls = s.calls ++ (performAll q s.now arrivals s.windows).2 := by
  induction arrivals generalizing s with
  | nil => exact ⟨[], s, rfl, rfl, (List.append_nil _).symm⟩
  | cons c rest ih =>
    have hover : Over c.name s.calls := by
      refine ⟨hreleased, fun b hb => ?_⟩
      exact (List.nodup_append.mp hnames).2.2 _ (List.mem_map_of_mem hb) _ List.mem_cons_self
    obtain ⟨u, n, hu, hw, hnow, hcalls⟩ :=
      alone (s := { s with now := s.now + c.waits }) hover c.op c.identity
    obtain ⟨as, t, ht, hwindows, hall⟩ := ih (s := u)
      (by
        intro b hb
        rw [hcalls, List.mem_append, List.mem_singleton] at hb
        rcases hb with hb | rfl
        · exact hreleased b hb
        · rfl)
      (by
        rw [hcalls, List.map_append, List.append_assoc]
        exact hnames)
    rw [hw, hnow] at hwindows hall
    refine ⟨.ticks c.waits :: _, t, run_cons_some.mpr ⟨_, rfl, run_append_some.mpr ⟨u, hu, ht⟩⟩,
      hwindows, ?_⟩
    rw [hall, hcalls, List.append_assoc]
    rfl

/-- Two requests of one client, the second when the window of the first is over. -/
def apart : List Arrival := [⟨0, 0, .consume, clientOf "a"⟩, ⟨11, 1, .consume, clientOf "a"⟩]

theorem in_turn_apart : ∃ as t, Transition.run (step small) (init 0) as = some t ∧
    t.windows = (performAll small 0 apart (init 0).windows).1 ∧
    t.calls = (performAll small 0 apart (init 0).windows).2 :=
  in_turn (s := init 0) _ (fun _ hc => by cases hc) (by decide)

/-! ### A call that consumes -/

/-- The call is admitted. -/
def Admitted (q : QuotaOptions) (identity : RateLimitIdentity) (now : ℤ) (w : Windows) : Prop :=
  ∃ r, (perform q .consume identity now w).2 = some r ∧ r.allowed = true

section Consume
variable {now : ℤ} {w : Windows} {answer : Target → RateLimitResult}

theorem targets_ne_nil (identity : RateLimitIdentity) : targets q identity ≠ [] :=
  List.append_ne_nil_of_right_ne_nil _ (List.cons_ne_nil _ _)

/-- When every key has room, the tightest budget is reported. -/
theorem evaluateLocked_of_room (hdecisions : (checkAll q now (targets q identity) w).2 =
      (targets q identity).map answer)
    (hroom : ∀ t ∈ targets q identity, (answer t).allowed = true) (charge : Bool) :
    evaluateLocked q identity charge now w =
      (if charge then consumeAll q now (targets q identity) (checkAll q now (targets q identity) w).1
        else (checkAll q now (targets q identity) w).1,
        report ((targets q identity).map answer) charge) := by
  have hfind : (checkAll q now (targets q identity) w).2.find? (fun d => ¬ d.allowed) = none := by
    rw [hdecisions]
    refine List.find?_eq_none.mpr fun d hd => ?_
    obtain ⟨t, ht, rfl⟩ := List.mem_map.mp hd
    simp [hroom t ht]
  rw [evaluateLocked]
  dsimp only
  rw [hfind, hdecisions]
  cases charge <;> rfl

/-- It charges when every key has room. -/
theorem perform_of_room (hdecisions : (checkAll q now (targets q identity) w).2 =
      (targets q identity).map answer)
    (hroom : ∀ t ∈ targets q identity, (answer t).allowed = true) :
    Admitted q identity now w ∧ (perform q .consume identity now w).1 =
      consumeAll q now (targets q identity) (checkAll q now (targets q identity) w).1 := by
  have hne : (targets q identity).map answer ≠ [] :=
    fun hnil => targets_ne_nil identity (List.map_eq_nil_iff.mp hnil)
  have hall : ∀ d ∈ (targets q identity).map answer, d.allowed = true := by
    intro d hd
    obtain ⟨t, ht, rfl⟩ := List.mem_map.mp hd
    exact hroom t ht
  have hperform : perform q .consume identity now w = _ := evaluateLocked_of_room hdecisions hroom true
  rw [Admitted, hperform]
  exact ⟨report_allowed hne hall true, rfl⟩

/-- The first key without room answers for it. -/
theorem perform_of_full (hdecisions : (checkAll q now (targets q identity) w).2 =
      (targets q identity).map answer) {before rest : List Target} {t : Target}
    (hsplit : targets q identity = before ++ t :: rest)
    (hbefore : ∀ b ∈ before, (answer b).allowed = true) (hfull : (answer t).allowed = false) :
    perform q .consume identity now w =
      ((checkAll q now (targets q identity) w).1, some (answer t)) := by
  have hfind : (checkAll q now (targets q identity) w).2.find? (fun d => ¬ d.allowed) =
      some (answer t) := by
    rw [hdecisions, hsplit, List.map_append, List.map_cons]
    refine List.find?_eq_some_iff_append.mpr ⟨by simp [hfull], _, _, rfl, fun d hd => ?_⟩
    obtain ⟨b, hb, rfl⟩ := List.mem_map.mp hd
    simp [hbefore b hb]
  rw [perform, evaluateLocked]
  dsimp only
  rw [hfind]

/-- Every key has room, or there is a first that has none. -/
theorem room_or_full (q : QuotaOptions) (identity : RateLimitIdentity) (answer : Target → RateLimitResult) :
    (∀ t ∈ targets q identity, (answer t).allowed = true) ∨
      ∃ before t rest, targets q identity = before ++ t :: rest ∧
        (∀ b ∈ before, (answer b).allowed = true) ∧ (answer t).allowed = false := by
  by_cases hroom : ∀ t ∈ targets q identity, (answer t).allowed = true
  · exact .inl hroom
  · push Not at hroom
    obtain ⟨u, hu, hfull⟩ := hroom
    obtain ⟨t, ht⟩ : ∃ t, (targets q identity).find? (fun t => !(answer t).allowed) = some t := by
      refine Option.isSome_iff_exists.mp (List.find?_isSome.mpr ⟨u, hu, ?_⟩)
      simpa using hfull
    obtain ⟨hfull, before, rest, hsplit, hbefore⟩ := List.find?_eq_some_iff_append.mp ht
    exact .inr ⟨before, t, rest, hsplit, fun b hb => by simpa using hbefore b hb, by simpa using hfull⟩

end Consume

end Remembra.Quota.QuotaRateLimiter
