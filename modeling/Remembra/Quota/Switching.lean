import Remembra.Quota.Alone
import Remembra.Quota.Redis

/-! One trace of calls, given to the in-process quota limiter and to instances of the limiter over the
    shared store, under one clock. Both answer from the history of the charges (`Sim`): the windows keep
    what is young of it, and so do the sorted sets. So the same requests are admitted, and a request that
    is denied is denied by the same budget for the same time (`stores_agree`). -/

namespace Remembra.Quota.Switching
open Transition SlidingWindow SortedSet QuotaRateLimiter

variable (q : QuotaOptions) (keyPrefix : String) (clients : List RateLimitIdentity)

/-- Both limiters, the clock, and what each call of `consume` was answered. -/
structure State where
  windows : Windows
  store : Redis.State
  now : ℤ
  answers : List (Option RateLimitResult × RateLimitResult)

/-- Both begin empty, at some time of a clock that counts from the epoch. -/
def init (start : ℕ) : State := ⟨fun _ => .empty, .empty, start, []⟩

inductive Action where
  /-- A call, in the shared store by way of one of the instances. -/
  | consume (instanceTag : String) (identity : RateLimitIdentity)
  | reset (identity : RateLimitIdentity)
  | ticks (ms : ℕ)

def step (s : State) : Action → Option State
  | .consume instanceTag identity =>
    let (windows, own) := perform q .consume identity s.now s.windows
    let (store, shared) := Redis.consume q keyPrefix instanceTag identity s.now s.store
    some { s with windows := windows, store := store, answers := s.answers ++ [(own, shared)] }
  | .reset identity => some { s with
      windows := (perform q .reset identity s.now s.windows).1
      store := Redis.reset q keyPrefix identity s.store }
  | .ticks ms => some { s with now := s.now + ms }

/-- The same decision, and the same reason for a denial. -/
def SameAdmission (own : Option RateLimitResult) (shared : RateLimitResult) : Prop :=
  ∃ r, own = some r ∧ r.allowed = shared.allowed ∧ (r.allowed = false →
    r.dimension = shared.dimension ∧ r.limit = shared.limit ∧ r.windowMs = shared.windowMs ∧
      r.retryAfterMs = shared.retryAfterMs)

def Action.By : Action → Prop
  | .consume _ identity | .reset identity => identity ∈ clients
  | .ticks _ => True

/-! ### The keys of the store -/

/-- Where the store keeps a key of a limiter. -/
def redisKey : Slot → String → String
  | .base, key => keyPrefix ++ Delimited.join '=' "base" key
  | .dimension _, key => keyPrefix ++ key

/-- A key of a dimension says so. -/
def Keyed : Slot → String → Prop
  | .base, _ => True
  | .dimension d, key => ∃ value, key = Delimited.join '=' d.name value

theorem name_notMem (d : RateLimitDimension) : '=' ∉ d.name.toList := by
  cases d <;> decide

theorem base_notMem : '=' ∉ "base".toList := by decide

theorem name_injective {d d' : RateLimitDimension} (h : d.name = d'.name) : d = d' := by
  cases d <;> cases d' <;> first | rfl | exact absurd h (by decide)

theorem name_ne_base (d : RateLimitDimension) : d.name ≠ "base" := by
  cases d <;> decide

/-- No two keys of the limiters share a key of the store. -/
theorem redisKey_inj {slot slot' : Slot} {key key' : String} (hk : Keyed slot key)
    (hk' : Keyed slot' key') (h : redisKey keyPrefix slot key = redisKey keyPrefix slot' key') :
    slot = slot' ∧ key = key' := by
  cases slot with
  | base =>
    cases slot' with
    | base =>
      have h := (String.append_right_inj _).mp h
      exact ⟨rfl, (Delimited.join_inj_first base_notMem base_notMem h).2⟩
    | dimension d' =>
      obtain ⟨value, rfl⟩ := hk'
      have h := (String.append_right_inj _).mp h
      exact absurd (Delimited.join_inj_first base_notMem (name_notMem d') h).1.symm (name_ne_base d')
  | dimension d =>
    obtain ⟨value, rfl⟩ := hk
    cases slot' with
    | base =>
      have h := (String.append_right_inj _).mp h
      exact absurd (Delimited.join_inj_first (name_notMem d) base_notMem h).1 (name_ne_base d)
    | dimension d' =>
      obtain ⟨value', rfl⟩ := hk'
      have h := (String.append_right_inj _).mp h
      obtain ⟨hd, rfl⟩ := Delimited.join_inj_first (name_notMem d) (name_notMem d') h
      obtain rfl := name_injective hd
      exact ⟨rfl, rfl⟩

variable {q clients}

theorem keyed_of_mem {identity : RateLimitIdentity} {t : Target} (h : t ∈ targets q identity) :
    Keyed t.slot t.key := by
  rcases List.mem_append.mp h with h | h
  · obtain ⟨d, hslot, -, hkey⟩ := mem_dimensionTargets h
    rw [hslot]
    rw [charged] at hkey
    split at hkey
    · cases hkey
    · rename_i value hvalue
      exact ⟨value, List.mem_singleton.mp hkey⟩
  · rw [List.mem_singleton.mp h]
    trivial

variable (q)

/-- Where a request's plan in the store agrees with the keys of the limiters. -/
def toEntry (t : Target) : Redis.PlanEntry :=
  ⟨t.slot.reported, t.policy, redisKey keyPrefix t.slot t.key⟩

theorem plan_eq (identity : RateLimitIdentity) :
    Redis.plan q keyPrefix identity = (targets q identity).map (toEntry keyPrefix) := by
  rw [Redis.plan, targets, List.map_append, dimensionTargets, List.map_flatMap,
    List.filterMap_eq_flatMap_toList]
  congr 1
  refine List.flatMap_congr fun p hp => ?_
  obtain ⟨d, policy⟩ := p
  dsimp only
  rw [charged]
  split <;> rename_i h <;> rw [h] <;> rfl

/-! ### Both answer from the history of the charges -/

/-- When each key of each limiter was charged. -/
abbrev History := Slot → String → List ℤ

def History.put (h : History) (t : Target) (times : List ℤ) : History :=
  Function.update h t.slot (Function.update (h t.slot) t.key times)

/-- The history after the keys have been charged, one after the other. -/
def History.charge (now : ℤ) (ts : List Target) (h : History) : History :=
  ts.foldl (fun h t => h.put t (h t.slot t.key ++ [now])) h

def History.wipe (ts : List Target) (h : History) : History := ts.foldl (fun h t => h.put t []) h

variable (clients)

/-- The in-process limiters keep what is young of the history. -/
def Tracked (now : ℤ) (h : History) (w : Windows) : Prop :=
  ∀ slot policy, q.policy? slot = some policy →
    Tracks (q.limiterFor policy) (keysOf clients slot) now (h slot) (w slot)

/-- The sorted sets do. -/
def Logged (now : ℤ) (h : History) (db : Redis.Db) : Prop :=
  ∀ slot policy, q.policy? slot = some policy → ∀ key, Keyed slot key →
    Logs (policy.windowMs : ℤ) now (h slot key) (db (redisKey keyPrefix slot key))

/-- A key of a limiter with a policy, of a request of a known client. -/
structure Known (t : Target) : Prop where
  policy : q.policy? t.slot = some t.policy
  key : t.key ∈ keysOf clients t.slot
  keyed : Keyed t.slot t.key

variable {q clients keyPrefix} {now : ℤ} {h : History} {w : Windows} {db : Redis.Db} {t : Target}
  {ts : List Target}

theorem known_of_mem {identity : RateLimitIdentity} (hc : identity ∈ clients)
    (ht : t ∈ targets q identity) : Known q clients t :=
  ⟨(mem_targets hc ht).1, (mem_targets hc ht).2, keyed_of_mem ht⟩

theorem History.put_same (times : List ℤ) :
    h.put t times t.slot = Function.update (h t.slot) t.key times := Function.update_self ..

theorem History.put_ne {slot : Slot} (hne : slot ≠ t.slot) (times : List ℤ) :
    h.put t times slot = h slot := Function.update_of_ne hne ..

theorem History.put_self : h.put t (h t.slot t.key) = h := by
  rw [put, Function.update_eq_self, Function.update_eq_self]

theorem Tracked.put (hw : Tracked q clients now h w) (ht : Known q clients t) {times : List ℤ}
    {l : InProcess} (hl : Tracks (q.limiterFor t.policy) (keysOf clients t.slot) now
      (Function.update (h t.slot) t.key times) l) :
    Tracked q clients now (h.put t times) (Function.update w t.slot l) := by
  intro slot policy hpolicy
  rcases eq_or_ne slot t.slot with rfl | hne
  · obtain rfl : policy = t.policy := Option.some.inj (hpolicy.symm.trans ht.policy)
    rw [History.put_same, Function.update_self]
    exact hl
  · rw [History.put_ne hne, Function.update_of_ne hne]
    exact hw slot policy hpolicy

theorem Logged.on (hdb : Logged q keyPrefix now h db) (ht : Known q clients t) {times : List ℤ}
    {command : Option (SortedSet String ℤ) → Option (SortedSet String ℤ)}
    (hl : Logs (t.policy.windowMs : ℤ) now times (command (db (redisKey keyPrefix t.slot t.key)))) :
    Logged q keyPrefix now (h.put t times) (db.on (redisKey keyPrefix t.slot t.key) command) := by
  intro slot policy hpolicy key hkeyed
  rw [Redis.Db.on]
  by_cases hsame : redisKey keyPrefix slot key = redisKey keyPrefix t.slot t.key
  · obtain ⟨rfl, rfl⟩ := redisKey_inj keyPrefix hkeyed ht.keyed hsame
    obtain rfl : policy = t.policy := Option.some.inj (hpolicy.symm.trans ht.policy)
    rw [Function.update_self, History.put_same, Function.update_self]
    exact hl
  · rw [Function.update_of_ne hsame]
    have hread : h.put t times slot key = h slot key := by
      rcases eq_or_ne slot t.slot with rfl | hne
      · have hkey : key ≠ t.key := fun heq => hsame (heq ▸ rfl)
        rw [History.put_same, Function.update_of_ne hkey]
      · rw [History.put_ne hne]
    rw [hread]
    exact hdb slot policy hpolicy key hkeyed

/-- The limiter of a key could charge it now. -/
def Room (now : ℤ) (h : History) (t : Target) : Prop :=
  (live (t.policy.windowMs : ℤ) now (h t.slot t.key)).length < t.policy.limit

instance (now : ℤ) (h : History) (t : Target) : Decidable (Room now h t) :=
  inferInstanceAs (Decidable (_ < _))

/-- What the limiter of a key answers when it is asked. -/
def answer (q : QuotaOptions) (now : ℤ) (h : History) (t : Target) : RateLimitResult :=
  { result (q.limiterFor t.policy) (live (t.policy.windowMs : ℤ) now (h t.slot t.key)) false now with
    dimension := some t.slot.reported }

theorem answer_allowed : (answer q now h t).allowed = true ↔ Room now h t :=
  decide_eq_true_iff

/-! ### The in-process limiters -/

theorem Tracked.evaluate (hw : Tracked q clients now h w) (hfew : clients.length < q.maxIdentities)
    (ht : Known q clients t) (charge : Bool) :
    (Quota.evaluate (q.limiterFor t.policy) t.key charge now (w t.slot)).2 =
      result (q.limiterFor t.policy) (live (t.policy.windowMs : ℤ) now (h t.slot t.key)) charge now ∧
    Tracks (q.limiterFor t.policy) (keysOf clients t.slot) now
      (if charge ∧ (Quota.evaluate (q.limiterFor t.policy) t.key charge now (w t.slot)).2.allowed
        then Function.update (h t.slot) t.key (h t.slot t.key ++ [now]) else h t.slot)
      (Quota.evaluate (q.limiterFor t.policy) t.key charge now (w t.slot)).1 :=
  evaluate_tracks (hw t.slot t.policy ht.policy) ht.key
    (lt_of_le_of_lt (keysOf_length_le clients t.slot) hfew) charge

theorem checkAll_tracked (hfew : clients.length < q.maxIdentities) (hw : Tracked q clients now h w)
    (hts : ∀ t ∈ ts, Known q clients t) :
    (checkAll q now ts w).2 = ts.map (answer q now h) ∧
      Tracked q clients now h (checkAll q now ts w).1 := by
  induction ts generalizing w with
  | nil => exact ⟨rfl, hw⟩
  | cons t ts ih =>
    have ht := hts t (List.mem_cons_self ..)
    obtain ⟨hresult, htracks⟩ := hw.evaluate hfew ht false
    simp only [Bool.false_eq_true, false_and, if_false] at htracks
    have hput : Tracked q clients now h
        (Function.update w t.slot (check (q.limiterFor t.policy) t.key now (w t.slot)).1) := by
      have hput : Tracked q clients now (h.put t (h t.slot t.key)) _ :=
        hw.put ht (by rwa [Function.update_eq_self])
      rwa [History.put_self] at hput
    obtain ⟨hrest, hafter⟩ := ih hput fun t' ht' => hts t' (List.mem_cons_of_mem _ ht')
    refine ⟨?_, hafter⟩
    simp only [checkAll, List.map_cons, hrest]
    rw [answer, ← hresult]
    rfl

theorem consumeAll_tracked (hfew : clients.length < q.maxIdentities) (hw : Tracked q clients now h w)
    (hts : ∀ t ∈ ts, Known q clients t) (hslots : ts.Pairwise fun t t' => t.slot ≠ t'.slot)
    (hroom : ∀ t ∈ ts, Room now h t) :
    Tracked q clients now (h.charge now ts) (consumeAll q now ts w) := by
  induction ts generalizing w h with
  | nil => exact hw
  | cons t ts ih =>
    have ht := hts t (List.mem_cons_self ..)
    obtain ⟨hne, hslots⟩ := List.pairwise_cons.mp hslots
    obtain ⟨hresult, htracks⟩ := hw.evaluate hfew ht true
    have hallowed : (Quota.evaluate (q.limiterFor t.policy) t.key true now (w t.slot)).2.allowed =
        true := by
      rw [hresult, result_allowed]
      exact hroom t (List.mem_cons_self ..)
    rw [if_pos ⟨rfl, hallowed⟩] at htracks
    refine ih (hw.put ht htracks) (fun t' ht' => hts t' (List.mem_cons_of_mem _ ht')) hslots
      fun t' ht' => ?_
    rw [Room]
    dsimp only
    rw [History.put_ne (hne t' ht').symm]
    exact hroom t' (List.mem_cons_of_mem _ ht')

theorem resetAll_tracked (hw : Tracked q clients now h w) (hts : ∀ t ∈ ts, Known q clients t) :
    Tracked q clients now (h.wipe ts) (resetAll ts w) := by
  induction ts generalizing w h with
  | nil => exact hw
  | cons t ts ih =>
    have ht := hts t (List.mem_cons_self ..)
    exact ih (hw.put ht ((hw t.slot t.policy ht.policy).reset t.key))
      fun t' ht' => hts t' (List.mem_cons_of_mem _ ht')

/-! ### The sorted sets -/

/-- The keys of the scripts. -/
def scriptKeys (keyPrefix : String) (ts : List Target) : List (String × QuotaPolicy) :=
  ts.map fun t => (redisKey keyPrefix t.slot t.key, t.policy)

/-- A member that an instance has given to some charge. -/
def Made (sequence : String → ℕ) (m : String) : Prop :=
  ∃ tag n time j, m = Delimited.join ':' (Redis.member tag n time) (toString (j : ℕ)) ∧ n ≤ sequence tag

/-- A member is one of a charge already made, or of a key charged before the `i`-th by the charge that is
    being made under `member`. -/
def Named (sequence : String → ℕ) (member : String) (i : ℕ) (db : Redis.Db) : Prop :=
  ∀ key, ∀ m ∈ names (db key), Made sequence m ∨ ∃ j < i, m = Delimited.join ':' member (toString j)

variable {sequence : String → ℕ} {member : String} {i : ℕ}

theorem colon_notMem (n : ℕ) : ':' ∉ (toString n).toList := Delimited.notMem_toString_nat (by decide) n

/-- A member of the store tells the instance and its sequence, and the position of the key. -/
theorem member_inj {tag tag' : String} {n n' : ℕ} {time time' : ℤ} {j j' : ℕ}
    (h : Delimited.join ':' (Redis.member tag n time) (toString j) =
      Delimited.join ':' (Redis.member tag' n' time') (toString j')) : tag = tag' ∧ n = n' := by
  have h := (Delimited.join_inj_last (colon_notMem j) (colon_notMem j') h).1
  have h := (Delimited.join_inj_last (Delimited.notMem_toString_int (by decide) (by decide) time)
    (Delimited.notMem_toString_int (by decide) (by decide) time') h).1
  obtain ⟨htag, hn⟩ := Delimited.join_inj_last (colon_notMem n) (colon_notMem n') h
  exact ⟨htag, Delimited.toString_nat_inj hn⟩

theorem Named.new {tag : String} (hdb : Named sequence (Redis.member tag (sequence tag + 1) now) i db)
    (key : String) :
    Delimited.join ':' (Redis.member tag (sequence tag + 1) now) (toString i) ∉ names (db key) := by
  intro hm
  rcases hdb key _ hm with ⟨tag', n, time, j, heq, hn⟩ | ⟨j, hj, heq⟩
  · obtain ⟨rfl, rfl⟩ := member_inj heq
    omega
  · have := Delimited.toString_nat_inj
      (Delimited.join_inj_last (colon_notMem i) (colon_notMem j) heq).2
    omega

theorem Named.on (hdb : Named sequence member i db) (key : String)
    (command : Option (SortedSet String ℤ) → Option (SortedSet String ℤ)) {i' : ℕ} (hi : i ≤ i')
    (hnames : ∀ m ∈ names (command (db key)), m ∈ names (db key) ∨
      ∃ j < i', m = Delimited.join ':' member (toString j)) :
    Named sequence member i' (db.on key command) := by
  intro key' m hm
  have hlift : m ∈ names (db key') → _ := fun hm => (hdb key' m hm).imp_right
    fun ⟨j, hj, heq⟩ => (⟨j, lt_of_lt_of_le hj hi, heq⟩ : ∃ j < i', m = Delimited.join ':' member _)
  rw [Redis.Db.on] at hm
  rcases eq_or_ne key' key with rfl | hne
  · rw [Function.update_self] at hm
    exact (hnames m hm).elim hlift .inr
  · rw [Function.update_of_ne hne] at hm
    exact hlift hm

theorem Named.prune (hdb : Named sequence member i db) (key : String) (lo hi : ℤ) :
    Named sequence member i (db.on key (zremrangebyscore now lo hi)) :=
  hdb.on key _ le_rfl fun _ hm => .inl (names_zremrangebyscore hm)

/-- Pass one finds the first key without room, and the time its oldest charge is young for. -/
theorem decide_logged (hdb : Logged q keyPrefix now h db) (hnames : Named sequence member 1 db)
    (hts : ∀ t ∈ ts, Known q clients t) (i : ℕ) :
    Logged q keyPrefix now h (Redis.decide now (scriptKeys keyPrefix ts) i db).1 ∧
    Named sequence member 1 (Redis.decide now (scriptKeys keyPrefix ts) i db).1 ∧
    ((∀ t ∈ ts, Room now h t) ∧ (Redis.decide now (scriptKeys keyPrefix ts) i db).2 = none ∨
      ∃ before t after, ts = before ++ t :: after ∧ (∀ b ∈ before, Room now h b) ∧ ¬ Room now h t ∧
        (Redis.decide now (scriptKeys keyPrefix ts) i db).2 =
          some (i + before.length, (answer q now h t).retryAfterMs)) := by
  induction ts generalizing db i with
  | nil => exact ⟨hdb, hnames, .inl ⟨fun _ hx => absurd hx List.not_mem_nil, rfl⟩⟩
  | cons t ts ih =>
    have ht := hts t (List.mem_cons_self ..)
    obtain ⟨hscores, hlogs⟩ := (hdb t.slot t.policy ht.policy t.key ht.keyed).prune
    have hlogged : Logged q keyPrefix now h (db.on (redisKey keyPrefix t.slot t.key)
        (zremrangebyscore now 0 (now - t.policy.windowMs))) := by
      have := hdb.on ht hlogs
      rwa [History.put_self] at this
    have hnamed : Named sequence member 1 (db.on (redisKey keyPrefix t.slot t.key)
        (zremrangebyscore now 0 (now - t.policy.windowMs))) := hnames.prune _ _ _
    have hread : (db.on (redisKey keyPrefix t.slot t.key)
        (zremrangebyscore now 0 (now - t.policy.windowMs))) (redisKey keyPrefix t.slot t.key) =
          zremrangebyscore now 0 (now - t.policy.windowMs) (db (redisKey keyPrefix t.slot t.key)) :=
      Function.update_self ..
    rw [scriptKeys, List.map_cons, Redis.decide]
    simp only [hread, zcard_eq, hscores]
    by_cases hroom : Room now h t
    · rw [if_neg (not_le.mpr hroom)]
      obtain ⟨hl, hn, hres⟩ := ih hlogged hnamed (fun t' ht' => hts t' (List.mem_cons_of_mem _ ht'))
        (i + 1)
      refine ⟨hl, hn, ?_⟩
      rcases hres with ⟨hall, hnone⟩ | ⟨before, t', after, rfl, hbefore, hfull, hsome⟩
      · exact .inl ⟨List.forall_mem_cons.mpr ⟨hroom, hall⟩, hnone⟩
      · refine .inr ⟨t :: before, t', after, rfl, List.forall_mem_cons.mpr ⟨hroom, hbefore⟩, hfull, ?_⟩
        rw [scriptKeys] at hsome
        rw [hsome, List.length_cons]
        congr 2
        omega
    · rw [if_pos (not_lt.mp hroom)]
      refine ⟨hlogged, hnamed, .inr ⟨[], t, ts, rfl, fun _ hx => absurd hx List.not_mem_nil, hroom, ?_⟩⟩
      have hnot : ¬ (answer q now h t).allowed = true := fun hallowed =>
        hroom (answer_allowed.mp hallowed)
      have hretry : (answer q now h t).retryAfterMs =
          (live (t.policy.windowMs : ℤ) now (h t.slot t.key)).head?.elim 0 fun oldest =>
            max 0 (oldest + t.policy.windowMs - now) := if_neg hnot
      rw [zrangeFirst_eq now hlogs.sorted, hscores, hretry]
      rfl

theorem charge_logged (hnow : 0 ≤ now) (hdb : Logged q keyPrefix now h db) {tag : String}
    (hnames : Named sequence (Redis.member tag (sequence tag + 1) now) i db)
    (hts : ∀ t ∈ ts, Known q clients t) (tightest : ℤ) :
    Logged q keyPrefix now (h.charge now ts) (Redis.charge now
      (Redis.member tag (sequence tag + 1) now) (scriptKeys keyPrefix ts) i tightest db).1 ∧
    Named sequence (Redis.member tag (sequence tag + 1) now) (i + ts.length) (Redis.charge now
      (Redis.member tag (sequence tag + 1) now) (scriptKeys keyPrefix ts) i tightest db).1 := by
  induction ts generalizing db h i tightest with
  | nil => exact ⟨hdb, hnames⟩
  | cons t ts ih =>
    have ht := hts t (List.mem_cons_self ..)
    have hlogs := (hdb t.slot t.policy ht.policy t.key ht.keyed).charge hnow
      (hnames.new (redisKey keyPrefix t.slot t.key))
    have hnamed := hnames.on (redisKey keyPrefix t.slot t.key)
      (fun z => pexpire now (t.policy.windowMs : ℤ) (zadd now now
        (Delimited.join ':' (Redis.member tag (sequence tag + 1) now) (toString i)) z))
      (Nat.le_succ i) fun m hm => (names_zadd (names_pexpire hm)).imp_right
        fun heq => ⟨i, Nat.lt_succ_self i, heq⟩
    rw [scriptKeys, List.map_cons, Redis.charge, Redis.Db.on_on]
    have hrest := ih (hdb.on ht hlogs) hnamed (fun t' ht' => hts t' (List.mem_cons_of_mem _ ht'))
    rw [List.length_cons, ← Nat.add_assoc, Nat.add_right_comm]
    exact hrest _

/-! ### One call -/

theorem History.wipe_apply (ts : List Target) (h : History) (slot : Slot) (key : String) :
    h.wipe ts slot key = if ∃ t ∈ ts, t.slot = slot ∧ t.key = key then [] else h slot key := by
  induction ts generalizing h with
  | nil => rfl
  | cons t ts ih =>
    have hput : h.put t [] slot key = if t.slot = slot ∧ t.key = key then [] else h slot key := by
      rcases eq_or_ne slot t.slot with rfl | hslot
      · rw [History.put_same]
        rcases eq_or_ne key t.key with rfl | hkey
        · rw [Function.update_self, if_pos ⟨rfl, rfl⟩]
        · rw [Function.update_of_ne hkey, if_neg fun hc => hkey hc.2.symm]
      · rw [History.put_ne hslot, if_neg fun hc => hslot hc.1.symm]
    rw [wipe, List.foldl_cons, ← wipe, ih, hput]
    simp only [List.exists_mem_cons_iff]
    by_cases hrest : ∃ t' ∈ ts, t'.slot = slot ∧ t'.key = key
    · rw [if_pos hrest, if_pos (.inr hrest)]
    · rw [if_neg hrest]
      exact if_congr (or_iff_left hrest).symm rfl rfl

/-- The order of the keys does not matter to a reset. -/
theorem History.wipe_congr {ts ts' : List Target} (hmem : ∀ t, t ∈ ts ↔ t ∈ ts') (h : History) :
    h.wipe ts = h.wipe ts' := by
  funext slot key
  rw [wipe_apply, wipe_apply]
  simp only [hmem]

theorem delete_logged (hdb : Logged q keyPrefix now h db) (hts : ∀ t ∈ ts, Known q clients t) :
    Logged q keyPrefix now (h.wipe ts)
      ((ts.map (toEntry keyPrefix)).foldl (fun db entry => db.on entry.key fun _ => none) db) := by
  induction ts generalizing h db with
  | nil => exact hdb
  | cons t ts ih =>
    exact ih (hdb.on (hts t (List.mem_cons_self ..)) (logs_none fun _ _ => live_nil))
      fun t' ht' => hts t' (List.mem_cons_of_mem _ ht')

theorem names_delete (plan : List Redis.PlanEntry) {key m : String}
    (hm : m ∈ names (plan.foldl (fun db entry => db.on entry.key fun _ => none) db key)) :
    m ∈ names (db key) := by
  induction plan generalizing db with
  | nil => exact hm
  | cons entry plan ih =>
    have hafter : m ∈ names (db.on entry.key (fun _ => none) key) := ih hm
    rw [Redis.Db.on] at hafter
    rcases eq_or_ne key entry.key with rfl | hne
    · rw [Function.update_self] at hafter
      cases hafter
    · rwa [Function.update_of_ne hne] at hafter

/-- What a charge has added under its member has been given by its instance when it is over. -/
theorem Named.over {tag : String} (hdb : Named sequence (Redis.member tag (sequence tag + 1) now) i db)
    (key m : String) (hm : m ∈ names (db key)) :
    Made (Function.update sequence tag (sequence tag + 1)) m := by
  rcases hdb key m hm with ⟨tag', n, time, j, rfl, hn⟩ | ⟨j, -, rfl⟩
  · refine ⟨tag', n, time, j, rfl, ?_⟩
    rcases eq_or_ne tag' tag with rfl | hne
    · rw [Function.update_self]
      exact Nat.le_succ_of_le hn
    · rwa [Function.update_of_ne hne]
  · exact ⟨tag, sequence tag + 1, now, j, rfl, by rw [Function.update_self]⟩

variable {s : State}

variable (q keyPrefix clients) in
/-- One history explains both limiters, and the answers so far were the same. -/
structure Sim (s : State) : Prop where
  now : 0 ≤ s.now
  history : ∃ h, Tracked q clients s.now h s.windows ∧ Logged q keyPrefix s.now h s.store.db
  made : ∀ key, ∀ m ∈ names (s.store.db key), Made s.store.sequence m
  same : ∀ p ∈ s.answers, SameAdmission p.1 p.2

theorem sim_init (start : ℕ) : Sim q keyPrefix clients (init start) where
  now := Int.natCast_nonneg start
  history := ⟨fun _ _ => [], fun _ _ _ => tracks_empty,
    fun _ _ _ _ _ => logs_none fun _ _ => live_nil⟩
  made _ _ hm := absurd hm List.not_mem_nil
  same _ hp := absurd hp List.not_mem_nil

section Consume
variable {identity : RateLimitIdentity} (hfew : clients.length < q.maxIdentities)
  (hc : identity ∈ clients)
include hfew hc

/-- The in-process limiters charge when there is room for every key. -/
theorem perform_charges (hw : Tracked q clients now h w)
    (hroom : ∀ t ∈ targets q identity, Room now h t) :
    (∃ r, (perform q .consume identity now w).2 = some r ∧ r.allowed = true) ∧
      Tracked q clients now (h.charge now (targets q identity))
        (perform q .consume identity now w).1 := by
  have hts : ∀ t ∈ targets q identity, Known q clients t := fun t ht => known_of_mem hc ht
  obtain ⟨hdecisions, hchecked⟩ := checkAll_tracked hfew hw hts
  obtain ⟨hadmitted, hafter⟩ :=
    perform_of_room hdecisions fun t ht => answer_allowed.mpr (hroom t ht)
  rw [hafter]
  exact ⟨hadmitted, consumeAll_tracked hfew hchecked hts (targets_pairwise identity) hroom⟩

/-- They answer as the first limiter without room for its key. -/
theorem perform_denies (hw : Tracked q clients now h w) {before after : List Target} {t : Target}
    (hsplit : targets q identity = before ++ t :: after) (hbefore : ∀ b ∈ before, Room now h b)
    (hfull : ¬ Room now h t) :
    (perform q .consume identity now w).2 = some (answer q now h t) ∧
      Tracked q clients now h (perform q .consume identity now w).1 := by
  obtain ⟨hdecisions, hchecked⟩ :=
    checkAll_tracked hfew hw (fun t (ht : t ∈ targets q identity) => known_of_mem hc ht)
  rw [perform_of_full hdecisions hsplit (fun b hb => answer_allowed.mpr (hbefore b hb))
    (Bool.eq_false_iff.mpr fun hallowed => hfull (answer_allowed.mp hallowed))]
  exact ⟨rfl, hchecked⟩

end Consume

theorem keys_plan (identity : RateLimitIdentity) :
    (Redis.plan q keyPrefix identity).map (fun entry => (entry.key, entry.policy)) =
      scriptKeys keyPrefix (targets q identity) := by
  rw [plan_eq, List.map_map]
  rfl

section Shared
variable {identity : RateLimitIdentity} {store : Redis.State} {after : Redis.Db}

/-- The script charges when no key refuses. -/
theorem shared_charges (hdecide : Redis.decide now (scriptKeys keyPrefix (targets q identity)) 1
      store.db = (db, none)) (tag : String) :
    (Redis.consume q keyPrefix tag identity now store).1 =
      ⟨(Redis.charge now (Redis.member tag (store.sequence tag + 1) now)
          (scriptKeys keyPrefix (targets q identity)) 1 (-1) db).1,
        Function.update store.sequence tag (store.sequence tag + 1)⟩ ∧
    (Redis.consume q keyPrefix tag identity now store).2.allowed = true := by
  simp only [Redis.consume, Redis.evaluate, keys_plan, Redis.quotaScript, hdecide, if_true]
  exact ⟨trivial, trivial⟩

/-- The key that refuses is the one that is reported. -/
theorem shared_denies {retry : ℤ} {before rest : List Target} {t : Target}
    (hdecide : Redis.decide now (scriptKeys keyPrefix (targets q identity)) 1 store.db =
      (db, some (1 + before.length, retry)))
    (hsplit : targets q identity = before ++ t :: rest) (tag : String) :
    Redis.consume q keyPrefix tag identity now store =
      (⟨db, Function.update store.sequence tag (store.sequence tag + 1)⟩,
        ⟨false, 0, retry, t.policy.limit, t.policy.windowMs, some t.slot.reported⟩) := by
  have hentry : (Redis.plan q keyPrefix identity)[1 + before.length - 1]? =
      some (toEntry keyPrefix t) := by
    rw [plan_eq, hsplit, Nat.add_sub_cancel_left, List.map_append, List.map_cons,
      List.getElem?_append_right (le_of_eq (List.length_map ..)), List.length_map, Nat.sub_self]
    rfl
  simp only [Redis.consume, Redis.evaluate, keys_plan, Redis.quotaScript, hdecide, if_true, hentry]
  rfl

end Shared

theorem step_consume (s : State) (tag : String) (identity : RateLimitIdentity) :
    step q keyPrefix s (.consume tag identity) = some
      ⟨(perform q .consume identity s.now s.windows).1,
        (Redis.consume q keyPrefix tag identity s.now s.store).1, s.now,
        s.answers ++ [((perform q .consume identity s.now s.windows).2,
          (Redis.consume q keyPrefix tag identity s.now s.store).2)]⟩ := rfl

/-- Both decide by the first key without room. -/
theorem consume_sim (hfew : clients.length < q.maxIdentities) {identity : RateLimitIdentity}
    (hc : identity ∈ clients) (hs : Sim q keyPrefix clients s) (tag : String) {t : State}
    (hstep : step q keyPrefix s (.consume tag identity) = some t) : Sim q keyPrefix clients t := by
  rw [step_consume] at hstep
  obtain rfl := Option.some.inj hstep
  obtain ⟨h, hw, hdb⟩ := hs.history
  have hts : ∀ t ∈ targets q identity, Known q clients t := fun t ht => known_of_mem hc ht
  have hnamed : Named s.store.sequence
      (Redis.member tag (s.store.sequence tag + 1) s.now) 1 s.store.db :=
    fun key m hm => .inl (hs.made key m hm)
  obtain ⟨hpruned, hnames, hfound⟩ := decide_logged hdb hnamed hts 1
  rcases hdecide : Redis.decide s.now (scriptKeys keyPrefix (targets q identity)) 1 s.store.db with
    ⟨db, found⟩
  rw [hdecide] at hpruned hnames hfound
  rcases hfound with ⟨hroom, hnone⟩ | ⟨before, u, after, hsplit, hbefore, hfull, hsome⟩
  · obtain ⟨⟨r, hr, hallowed⟩, htracked⟩ := perform_charges hfew hc hw hroom
    obtain ⟨hlogged, hover⟩ := charge_logged hs.now hpruned hnames hts (-1)
    obtain rfl : found = none := hnone
    obtain ⟨hstore, hshared⟩ := shared_charges hdecide tag
    refine ⟨hs.now, ⟨_, htracked, ?_⟩, ?_, List.forall_mem_append.mpr ⟨hs.same, ?_⟩⟩
    · dsimp only
      rw [hstore]
      exact hlogged
    · dsimp only
      rw [hstore]
      exact hover.over
    · refine List.forall_mem_singleton.mpr ⟨r, hr, hallowed.trans hshared.symm, fun hdenied => ?_⟩
      rw [hallowed] at hdenied
      cases hdenied
  · obtain ⟨hown, htracked⟩ := perform_denies hfew hc hw hsplit hbefore hfull
    obtain rfl : found = _ := hsome
    have hshared := shared_denies hdecide hsplit tag
    refine ⟨hs.now, ⟨_, htracked, ?_⟩, ?_, List.forall_mem_append.mpr ⟨hs.same, ?_⟩⟩
    · dsimp only
      rw [hshared]
      exact hpruned
    · dsimp only
      rw [hshared]
      exact hnames.over
    · refine List.forall_mem_singleton.mpr ⟨_, hown, ?_, fun _ => ?_⟩
      · rw [hshared]
        simpa using fun hallowed => hfull (answer_allowed.mp hallowed)
      · rw [hshared]
        exact ⟨rfl, rfl, rfl, rfl⟩

/-- A reset forgets the same keys in both. -/
theorem reset_sim {identity : RateLimitIdentity} (hc : identity ∈ clients)
    (hs : Sim q keyPrefix clients s) {t : State}
    (hstep : step q keyPrefix s (.reset identity) = some t) : Sim q keyPrefix clients t := by
  obtain rfl := Option.some.inj hstep
  obtain ⟨h, hw, hdb⟩ := hs.history
  have hts : ∀ t ∈ targets q identity, Known q clients t := fun t ht => known_of_mem hc ht
  have hmem : ∀ t, t ∈ targets q identity ↔
      t ∈ baseTarget q identity :: dimensionTargets q identity := by
    intro t
    rw [targets, List.mem_append, List.mem_singleton, List.mem_cons, or_comm]
  refine ⟨hs.now, ⟨h.wipe (targets q identity), ?_, ?_⟩, fun key m hm => ?_, hs.same⟩
  · rw [History.wipe_congr hmem]
    exact resetAll_tracked hw fun t ht => hts t ((hmem t).mpr ht)
  · have hdeleted := delete_logged hdb hts
    rwa [← plan_eq] at hdeleted
  · exact hs.made key m (names_delete _ hm)

theorem ticks_sim (hs : Sim q keyPrefix clients s) {ms : ℕ} {t : State}
    (hstep : step q keyPrefix s (.ticks ms) = some t) : Sim q keyPrefix clients t := by
  obtain rfl := Option.some.inj hstep
  obtain ⟨h, hw, hdb⟩ := hs.history
  have hle : s.now ≤ s.now + ms := by omega
  exact ⟨hs.now.trans hle, ⟨h, fun slot policy hpolicy => (hw slot policy hpolicy).later hle,
    fun slot policy hpolicy key hkeyed => (hdb slot policy hpolicy key hkeyed).later hle⟩, hs.made,
    hs.same⟩

/-- Over every trace of calls by fewer clients than the in-process limiters can track, through any
    instances of the limiter over the shared store: the two admit the same requests, and a denial names
    the same dimension, limit and window and the same time to wait. -/
theorem stores_agree (q : QuotaOptions) (keyPrefix : String) (clients : List RateLimitIdentity)
    (start : ℕ) (as : List Action) (hfew : clients.length < q.maxIdentities)
    (has : ∀ a ∈ as, a.By clients) :
    Everywhere (step q keyPrefix) (fun s => ∀ p ∈ s.answers, SameAdmission p.1 p.2) (init start)
      as := by
  refine everywhere_of_along (I := Sim q keyPrefix clients) (fun s a t hs ha hstep => ?_)
    (fun s hs => hs.same) as (sim_init start) (along_of_mem has _)
  cases a with
  | consume tag identity => exact consume_sim hfew ha hs tag hstep
  | reset identity => exact reset_sim ha hs hstep
  | ticks ms => exact ticks_sim hs hstep

/-- Two instances: the second request of a client is denied by its own budget, the fourth request by the
    budget of the organization. -/
def twoInstances : List Action :=
  [.consume "x" (clientOf "a"), .ticks 1, .consume "y" (clientOf "a"), .consume "y" (clientOf "b"),
    .ticks 5, .consume "x" (clientOf "b"), .reset (clientOf "a"), .consume "x" (clientOf "a"),
    .ticks 10, .consume "y" (clientOf "a")]

theorem stores_agree_twoInstances : Everywhere (step small "q:")
    (fun s => ∀ p ∈ s.answers, SameAdmission p.1 p.2) (init 0) twoInstances := by
  refine stores_agree small "q:" [clientOf "a", clientOf "b"] 0 twoInstances (by decide) ?_
  simp [twoInstances, Action.By]

end Remembra.Quota.Switching
