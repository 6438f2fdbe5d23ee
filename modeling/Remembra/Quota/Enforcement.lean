import Remembra.Quota.QuotaRateLimiter

/-! What the quota limiter enforces. The chain of promises lets one call at a time go through the
    limiters, so what a call has checked still holds when it charges, and every limiter keeps within its
    limit; a call charges all of its keys or none. And the limiters answer from the charges alone, so a
    run decides the same when calls of `check` are taken out of it. -/

namespace Remembra.Quota.QuotaRateLimiter
open Transition SlidingWindow

variable (q : QuotaOptions) (clients : List RateLimitIdentity)

/-! ### The invariant -/

/-- When a key of a limiter was charged. -/
def history (charges : List Charge) (slot : Slot) (key : String) : List ℤ :=
  (charges.filter fun e => e.slot = slot ∧ e.key = key).map (·.time)

/-- The keys a call has charged. -/
def chargedBy (charges : List Charge) (name : ℕ) : List (Slot × String) :=
  (charges.filter fun e => e.call = name).map fun e => (e.slot, e.key)

/-- The limiter of a key could charge it now. -/
def Room (now : ℤ) (charges : List Charge) (t : Target) : Prop :=
  (live (t.policy.windowMs : ℤ) now (history charges t.slot t.key)).length < t.policy.limit

/-- What holds of a call, by where it stands. -/
def CallOk (now : ℤ) (charges : List Charge) (c : Call) : Prop :=
  match c.phase with
  | .waiting => chargedBy charges c.name = []
  | .checking todo decisions => chargedBy charges c.name = [] ∧
      ∃ done, targets q c.identity = done ++ todo ∧ decisions.length = done.length ∧
        ((∀ d ∈ decisions, d.allowed = true) → ∀ t ∈ done, Room now charges t)
  | .charging todo decisions => c.op = .consume ∧ decisions ≠ [] ∧
      (∀ d ∈ decisions, d.allowed = true) ∧ ∃ done, targets q c.identity = done ++ todo ∧
        chargedBy charges c.name = done.map (fun t => (t.slot, t.key)) ∧
        ∀ t ∈ todo, Room now charges t
  | .resetting _ => False
  | .returned r => chargedBy charges c.name =
      if c.op = .consume ∧ r.any (·.allowed) then
        (targets q c.identity).map (fun t => (t.slot, t.key))
      else []

structure Inv (s : State) : Prop where
  names : (s.calls.map (·.name)).Nodup
  known : ∀ c ∈ s.calls, c.identity ∈ clients ∧ c.op ≠ .reset
  turns : s.calls.Pairwise fun a b => b.phase ≠ .waiting → a.released = true
  callers : ∀ e ∈ s.charges, e.call ∈ s.calls.map (·.name)
  tracks : ∀ slot policy, q.policy? slot = some policy → Tracks (q.limiterFor policy)
    (keysOf clients slot) s.now (history s.charges slot) (s.windows slot)
  within : ∀ slot policy, q.policy? slot = some policy → ∀ key,
    Within policy.limit (policy.windowMs : ℤ) (history s.charges slot key)
  calls : ∀ c ∈ s.calls, CallOk q s.now s.charges c

variable {q} {clients} {s : State}

theorem inv_init (start : ℤ) : Inv q clients (init start) where
  names := List.nodup_nil
  known _ h := absurd h List.not_mem_nil
  turns := List.Pairwise.nil
  callers _ h := absurd h List.not_mem_nil
  tracks _ _ _ := tracks_empty
  within _ _ _ _ := within_nil
  calls _ h := absurd h List.not_mem_nil

theorem history_concat (charges : List Charge) (e : Charge) (slot : Slot) :
    history (charges ++ [e]) slot = if slot = e.slot
      then Function.update (history charges slot) e.key (history charges slot e.key ++ [e.time])
      else history charges slot := by
  funext key
  split
  · rename_i hslot
    rcases eq_or_ne key e.key with rfl | hkey
    · simp [history, hslot]
    · rw [Function.update_of_ne hkey]
      simp [history, hkey.symm]
  · rename_i hslot
    simp [history, Ne.symm hslot]

/-- A call that waits, or has returned, is only known by its own charges. -/
theorem CallOk.idle {now now' : ℤ} {charges charges' : List Charge} {c : Call}
    (h : CallOk q now charges c) (hidle : c.phase = .waiting ∨ c.released = true)
    (hown : chargedBy charges' c.name = chargedBy charges c.name) : CallOk q now' charges' c := by
  rcases hp : c.phase with _ | _ | _ | _ | r
  all_goals simp_all [CallOk, Call.released]

/-- What there is room for now there is room for later. -/
theorem CallOk.later {now now' : ℤ} (hle : now ≤ now') {charges : List Charge} {c : Call}
    (h : CallOk q now charges c) : CallOk q now' charges c := by
  have hroom : ∀ t, Room now charges t → Room now' charges t :=
    fun t ht => lt_of_le_of_lt (live_length_le hle) ht
  rw [CallOk] at h ⊢
  split at h
  · exact h
  · obtain ⟨hown, done, hsplit, hlen, hall⟩ := h
    exact ⟨hown, done, hsplit, hlen, fun hd t ht => hroom t (hall hd t ht)⟩
  · obtain ⟨hop, hne, hd, done, hsplit, hown, hall⟩ := h
    exact ⟨hop, hne, hd, done, hsplit, hown, fun t ht => hroom t (hall t ht)⟩
  · exact h
  · exact h

/-! ### Turns -/

/-- It is the turn of `c`: the calls before it are over, the calls after it have not begun. -/
structure OnTurn (s : State) (c : Call) (before after : List Call) : Prop where
  calls : s.calls = before ++ c :: after
  released : ∀ b ∈ before, b.released = true
  waiting : ∀ a ∈ after, a.phase = .waiting
  before_ne : ∀ b ∈ before, b.name ≠ c.name
  after_ne : ∀ a ∈ after, a.name ≠ c.name

theorem begun_of_released {c : Call} (h : c.released = true) : c.phase ≠ .waiting := by
  intro hp
  simp [Call.released, hp] at h

theorem turn_unreleased {c : Call} {r : State × Phase} (h : turn q s c = some r) :
    c.released = false := by
  rw [turn] at h
  rw [Call.released]
  split at h <;> simp_all

theorem turn_calls {c : Call} {u : State} {phase : Phase} (h : turn q s c = some (u, phase)) :
    u.calls = s.calls ∧ u.now = s.now := by
  rw [turn] at h
  split at h
  · split at h
    · cases h
      exact ⟨rfl, rfl⟩
    · cases h
  all_goals cases h <;> exact ⟨rfl, rfl⟩

theorem takeWhile_names {before after : List Call} {c : Call}
    (h : ∀ b ∈ before, b.name ≠ c.name) :
    (before ++ c :: after).takeWhile (fun b => b.name ≠ c.name) = before := by
  rw [List.takeWhile_append_of_pos (by simpa using h), List.takeWhile_cons_of_neg (by simp),
    List.append_nil]

/-- A call that goes on is on its turn. -/
theorem Inv.onTurn (h : Inv q clients s) {name : ℕ} {c : Call}
    (hfind : s.calls.find? (·.name = name) = some c) {r : State × Phase}
    (hturn : turn q s c = some r) : c.name = name ∧ ∃ before after, OnTurn s c before after := by
  obtain ⟨hname, before, after, hcalls, hbefore⟩ := List.find?_eq_some_iff_append.mp hfind
  obtain rfl : c.name = name := of_decide_eq_true hname
  have hne : ∀ b ∈ before, b.name ≠ c.name := by simpa using hbefore
  have hnames := h.names
  rw [hcalls, List.map_append, List.map_cons, List.nodup_append] at hnames
  have hafter : ∀ a ∈ after, a.name ≠ c.name := fun a ha heq =>
    (List.nodup_cons.mp hnames.2.1).1 (List.mem_map.mpr ⟨a, ha, heq⟩)
  have hturns := h.turns
  rw [hcalls] at hturns
  obtain ⟨hbefores, hrest, hcross⟩ := List.pairwise_append.mp hturns
  have hreleased : ∀ b ∈ before, b.released = true := by
    by_cases hwaiting : c.phase = .waiting
    · -- the call before `c` has been released, so it was on its turn once itself
      have hprevious : before.getLast?.all (·.released) = true := by
        rw [turn, hwaiting] at hturn
        simp only [previous, hcalls, takeWhile_names hne] at hturn
        split at hturn
        · assumption
        · cases hturn
      intro b hb
      rcases hlast : before.getLast? with _ | last
      · rw [List.getLast?_eq_none_iff.mp hlast] at hb
        cases hb
      · obtain ⟨front, rfl⟩ := List.getLast?_eq_some_iff.mp hlast
        have hover : last.released = true := by simpa [hlast] using hprevious
        rcases List.mem_append.mp hb with hb | hb
        · exact (List.pairwise_append.mp hbefores).2.2 b hb last (by simp) (begun_of_released hover)
        · rw [List.mem_singleton.mp hb]
          exact hover
    · exact fun b hb => hcross b hb c (List.mem_cons_self ..) hwaiting
  refine ⟨rfl, before, after, hcalls, hreleased, fun a ha => ?_, hne, hafter⟩
  by_contra hnot
  have := (List.pairwise_cons.mp hrest).1 a ha hnot
  rw [turn_unreleased hturn] at this
  cases this

theorem OnTurn.setPhase {c : Call} {before after : List Call} (ht : OnTurn s c before after)
    {u : State} (hu : u.calls = s.calls) (phase : Phase) :
    (u.setPhase c.name phase).calls = before ++ { c with phase := phase } :: after := by
  have hsame : ∀ l : List Call, (∀ b ∈ l, b.name ≠ c.name) →
      (l.map fun b => if b.name = c.name then { b with phase := phase } else b) = l := by
    intro l hl
    induction l with
    | nil => rfl
    | cons b l ih =>
      rw [List.map_cons, if_neg (hl b (List.mem_cons_self ..)),
        ih fun a ha => hl a (List.mem_cons_of_mem _ ha)]
  simp only [State.setPhase, hu, ht.calls, List.map_append, List.map_cons, if_true,
    hsame before ht.before_ne, hsame after ht.after_ne]

/-- What a turn has to keep: the limiters and the charges of the other calls. -/
theorem inv_setPhase (h : Inv q clients s) {c : Call} {before after : List Call}
    (ht : OnTurn s c before after) {u : State} (hcalls : u.calls = s.calls)
    (hnow : u.now = s.now) {phase : Phase}
    (htracks : ∀ slot policy, q.policy? slot = some policy → Tracks (q.limiterFor policy)
      (keysOf clients slot) s.now (history u.charges slot) (u.windows slot))
    (hwithin : ∀ slot policy, q.policy? slot = some policy → ∀ key,
      Within policy.limit (policy.windowMs : ℤ) (history u.charges slot key))
    (hown : ∀ name, name ≠ c.name → chargedBy u.charges name = chargedBy s.charges name)
    (hcallers : ∀ e ∈ u.charges, e ∈ s.charges ∨ e.call = c.name)
    (hok : CallOk q s.now u.charges { c with phase := phase }) :
    Inv q clients (u.setPhase c.name phase) := by
  have hnew := ht.setPhase hcalls phase
  have hnames : (u.setPhase c.name phase).calls.map (·.name) = s.calls.map (·.name) := by
    rw [hnew, ht.calls, List.map_append, List.map_append, List.map_cons, List.map_cons]
  have hmem : c ∈ s.calls := by simp [ht.calls]
  have hturns := h.turns
  rw [ht.calls] at hturns
  obtain ⟨hbefore, hrest, -⟩ := List.pairwise_append.mp hturns
  obtain ⟨-, hafter⟩ := List.pairwise_cons.mp hrest
  -- the calls other than `c` wait, or are over
  have hothers : ∀ b, b ∈ before ∨ b ∈ after → CallOk q s.now u.charges b := by
    intro b hb
    have hb' : b ∈ s.calls := by
      rw [ht.calls, List.mem_append, List.mem_cons]
      exact hb.imp_right .inr
    rcases hb with hb | hb
    · exact (h.calls b hb').idle (.inr (ht.released b hb)) (hown _ (ht.before_ne b hb))
    · exact (h.calls b hb').idle (.inl (ht.waiting b hb)) (hown _ (ht.after_ne b hb))
  refine ⟨hnames ▸ h.names, fun b hb => ?_, ?_, fun e he => ?_, ?_, hwithin, fun b hb => ?_⟩
  · rw [hnew, List.mem_append, List.mem_cons] at hb
    rcases hb with hb | rfl | hb
    · exact h.known b (by simp [ht.calls, hb])
    · exact h.known c hmem
    · exact h.known b (by simp [ht.calls, hb])
  · rw [hnew]
    refine List.pairwise_append.mpr ⟨hbefore, List.pairwise_cons.mpr ⟨fun a ha hnot => ?_, hafter⟩,
      fun b hb _ _ _ => ht.released b hb⟩
    exact absurd (ht.waiting a ha) hnot
  · rw [hnames]
    rcases hcallers e he with hold | hcall
    · exact h.callers e hold
    · exact hcall ▸ List.mem_map.mpr ⟨c, hmem, rfl⟩
  · intro slot policy hp
    change Tracks _ _ u.now _ _
    rw [hnow]
    exact htracks slot policy hp
  · change CallOk q u.now u.charges b
    rw [hnow]
    rw [hnew, List.mem_append, List.mem_cons] at hb
    rcases hb with hb | rfl | hb
    · exact hothers b (.inl hb)
    · exact hok
    · exact hothers b (.inr hb)

/-- A turn that only looks at what the call has found. -/
theorem inv_phase (h : Inv q clients s) {c : Call} {before after : List Call}
    (ht : OnTurn s c before after) {phase : Phase}
    (hok : CallOk q s.now s.charges { c with phase := phase }) :
    Inv q clients (s.setPhase c.name phase) :=
  inv_setPhase h ht rfl rfl h.tracks h.within (fun _ _ => rfl) (fun _ => .inl) hok

/-- The limiters after one of them has answered. -/
theorem Inv.tracks_put (h : Inv q clients s) {t : Target} (hpolicy : q.policy? t.slot = some t.policy)
    {charges : List Charge} {l : InProcess}
    (hother : ∀ slot, slot ≠ t.slot → history charges slot = history s.charges slot)
    (hl : Tracks (q.limiterFor t.policy) (keysOf clients t.slot) s.now (history charges t.slot) l)
    (slot : Slot) (policy : QuotaPolicy) (hslot : q.policy? slot = some policy) :
    Tracks (q.limiterFor policy) (keysOf clients slot) s.now (history charges slot)
      ((s.put t.slot l).windows slot) := by
  change Tracks _ _ _ _ (Function.update s.windows t.slot l slot)
  rcases eq_or_ne slot t.slot with rfl | hne
  · obtain rfl : policy = t.policy := Option.some.inj (hslot.symm.trans hpolicy)
    rw [Function.update_self]
    exact hl
  · rw [Function.update_of_ne hne, hother slot hne]
    exact h.tracks slot policy hslot

/-- What a limiter answers, and what it keeps, for a key of a request of a known client. -/
theorem Inv.evaluate (h : Inv q clients s) (hfew : clients.length < q.maxIdentities) {c : Call}
    (hc : c ∈ s.calls) {t : Target} (hmem : t ∈ targets q c.identity) (charge : Bool) :
    (evaluate (q.limiterFor t.policy) t.key charge s.now (s.windows t.slot)).2 =
      result (q.limiterFor t.policy)
        (live (t.policy.windowMs : ℤ) s.now (history s.charges t.slot t.key)) charge s.now ∧
    Tracks (q.limiterFor t.policy) (keysOf clients t.slot) s.now
      (if charge ∧
          (Quota.evaluate (q.limiterFor t.policy) t.key charge s.now (s.windows t.slot)).2.allowed
        then Function.update (history s.charges t.slot) t.key
          (history s.charges t.slot t.key ++ [s.now])
        else history s.charges t.slot)
      (Quota.evaluate (q.limiterFor t.policy) t.key charge s.now (s.windows t.slot)).1 := by
  obtain ⟨hpolicy, hkey⟩ := mem_targets (h.known c hc).1 hmem
  exact evaluate_tracks (h.tracks t.slot t.policy hpolicy) hkey
    (lt_of_le_of_lt (keysOf_length_le clients t.slot) hfew) charge

theorem result_allowed {o : RateLimiterOptions} {young : List ℤ} {charge : Bool} {now : ℤ} :
    (result o young charge now).allowed = true ↔ young.length < o.limit := by
  simp [result]

theorem inv_check (h : Inv q clients s) (hfew : clients.length < q.maxIdentities) {c : Call}
    {before after : List Call} (ht : OnTurn s c before after) {t : Target} {todo : List Target}
    {decisions : List RateLimitResult} (hp : c.phase = .checking (t :: todo) decisions)
    {l : InProcess} {r : RateLimitResult}
    (hr : check (q.limiterFor t.policy) t.key s.now (s.windows t.slot) = (l, r)) :
    Inv q clients ((s.put t.slot l).setPhase c.name
      (.checking todo (decisions ++ [{ r with dimension := some t.slot.reported }]))) := by
  have hc : c ∈ s.calls := by simp [ht.calls]
  have hok := h.calls c hc
  rw [CallOk, hp] at hok
  obtain ⟨hown, done, hsplit, hlen, hall⟩ := hok
  have hmem : t ∈ targets q c.identity := by simp [hsplit]
  obtain ⟨hpolicy, -⟩ := mem_targets (h.known c hc).1 hmem
  obtain ⟨hresult, htrack⟩ := h.evaluate hfew hc hmem false
  rw [check] at hr
  rw [hr] at hresult htrack
  simp only [Bool.false_eq_true, false_and, if_false] at htrack
  refine inv_setPhase (u := s.put t.slot l) h ht rfl rfl
    (h.tracks_put hpolicy (fun _ _ => rfl) ?_) h.within (fun _ _ => rfl) (fun _ => .inl) ?_
  · exact htrack
  · refine ⟨hown, done ++ [t], by simp [hsplit], by simp [hlen], fun hd t' ht' => ?_⟩
    rcases List.mem_append.mp ht' with ht' | ht'
    · exact hall (fun d hmem => hd d (List.mem_append_left _ hmem)) t' ht'
    · have hallowed : r.allowed = true :=
        hd { r with dimension := some t.slot.reported } (by simp)
      rw [show r = _ from hresult, result_allowed] at hallowed
      rw [List.mem_singleton.mp ht']
      exact hallowed

/-- What follows the last `check`. -/
theorem inv_decided (h : Inv q clients s) {c : Call} {before after : List Call}
    (ht : OnTurn s c before after) {decisions : List RateLimitResult}
    (hp : c.phase = .checking [] decisions) :
    Inv q clients (s.setPhase c.name (decided q c.op c.identity decisions)) := by
  have hok := h.calls c (by simp [ht.calls])
  rw [CallOk, hp] at hok
  obtain ⟨hown, done, hsplit, hlen, hall⟩ := hok
  rw [List.append_nil] at hsplit
  have hsome : decisions ≠ [] := by
    rintro rfl
    have : (targets q c.identity).length = 0 := by rw [hsplit, ← hlen]; rfl
    simp [targets] at this
  rw [decided]
  split
  · rename_i denial hdenial
    have hdenied : denial.allowed = false := by simpa using List.find?_some hdenial
    refine inv_phase h ht ?_
    simpa [CallOk, hdenied] using hown
  · rename_i hnone
    have hallowed : ∀ d ∈ decisions, d.allowed = true := by simpa using hnone
    split
    · rename_i hop
      refine inv_phase h ht ?_
      exact ⟨hop, hsome, hallowed, [], by simp, hown, hsplit ▸ hall hallowed⟩
    · rename_i hop
      refine inv_phase h ht ?_
      simpa [CallOk, hop] using hown

/-- A key with room is charged. -/
theorem inv_charge (h : Inv q clients s) (hfew : clients.length < q.maxIdentities) {c : Call}
    {before after : List Call} (ht : OnTurn s c before after) {t : Target} {todo : List Target}
    {decisions : List RateLimitResult} (hp : c.phase = .charging (t :: todo) decisions)
    {l : InProcess} {r : RateLimitResult}
    (hr : consume (q.limiterFor t.policy) t.key s.now (s.windows t.slot) = (l, r)) :
    r.allowed = true ∧ Inv q clients (State.setPhase { s.put t.slot l with
      charges := s.charges ++ [⟨c.name, t.slot, t.key, s.now⟩] } c.name
        (.charging todo decisions)) := by
  have hc : c ∈ s.calls := by simp [ht.calls]
  have hok := h.calls c hc
  rw [CallOk, hp] at hok
  obtain ⟨hop, hne, hallowed, done, hsplit, hown, hroom⟩ := hok
  have hmem : t ∈ targets q c.identity := by simp [hsplit]
  obtain ⟨hpolicy, -⟩ := mem_targets (h.known c hc).1 hmem
  obtain ⟨hresult, htrack⟩ := h.evaluate hfew hc hmem true
  rw [consume] at hr
  rw [hr] at hresult htrack
  have hroomt : Room s.now s.charges t := hroom t (List.mem_cons_self ..)
  have hr_allowed : r.allowed = true := by
    rw [show r = _ from hresult, result_allowed]
    exact hroomt
  have hhistory : ∀ slot, slot ≠ t.slot →
      history (s.charges ++ [⟨c.name, t.slot, t.key, s.now⟩]) slot = history s.charges slot :=
    fun slot hslot => by rw [history_concat, if_neg hslot]
  have hself : history (s.charges ++ [⟨c.name, t.slot, t.key, s.now⟩]) t.slot =
      Function.update (history s.charges t.slot) t.key
        (history s.charges t.slot t.key ++ [s.now]) := by
    rw [history_concat, if_pos rfl]
  refine ⟨hr_allowed, inv_setPhase (u := { s.put t.slot l with
    charges := s.charges ++ [⟨c.name, t.slot, t.key, s.now⟩] }) h ht rfl rfl
    (h.tracks_put hpolicy hhistory ?_) ?_ ?_ ?_ ?_⟩
  · rw [hself]
    simpa [hr_allowed] using htrack
  · intro slot policy hslot key
    change Within _ _ (history (s.charges ++ [⟨c.name, t.slot, t.key, s.now⟩]) slot key)
    rcases eq_or_ne slot t.slot with rfl | hslot'
    · obtain rfl : policy = t.policy := Option.some.inj (hslot.symm.trans hpolicy)
      rw [hself]
      rcases eq_or_ne key t.key with rfl | hkey
      · rw [Function.update_self]
        exact (h.within _ _ hpolicy _).concat hroomt
      · rw [Function.update_of_ne hkey]
        exact h.within _ _ hpolicy _
    · rw [hhistory slot hslot']
      exact h.within slot policy hslot key
  · intro name hname
    simp [chargedBy, hname.symm]
  · intro e he
    rcases List.mem_append.mp he with he | he
    · exact .inl he
    · exact .inr (by rw [List.mem_singleton.mp he])
  · refine ⟨hop, hne, hallowed, done ++ [t], by simp [hsplit], ?_, fun t' ht' => ?_⟩
    · have : chargedBy (s.charges ++ [⟨c.name, t.slot, t.key, s.now⟩]) c.name =
          chargedBy s.charges c.name ++ [(t.slot, t.key)] := by
        simp [chargedBy]
      rw [List.map_append, ← hown]
      exact this
    · -- no other key of the request is one of this limiter
      have hslots := targets_pairwise (q := q) c.identity
      rw [hsplit, List.pairwise_append, List.pairwise_cons] at hslots
      have hslot : t'.slot ≠ t.slot := (hslots.2.1.1 t' ht').symm
      change (live _ _ (history _ t'.slot t'.key)).length < _
      rw [hhistory t'.slot hslot]
      exact hroom t' (List.mem_cons_of_mem _ ht')

/-- What follows the last `consume`. -/
theorem inv_reported (h : Inv q clients s) {c : Call} {before after : List Call}
    (ht : OnTurn s c before after) {decisions : List RateLimitResult}
    (hp : c.phase = .charging [] decisions) :
    Inv q clients (s.setPhase c.name (.returned (report decisions true))) := by
  have hok := h.calls c (by simp [ht.calls])
  rw [CallOk, hp] at hok
  obtain ⟨hop, hne, hallowed, done, hsplit, hown, -⟩ := hok
  rw [List.append_nil] at hsplit
  obtain ⟨r, hr, hr_allowed⟩ := report_allowed hne hallowed true
  refine inv_phase h ht ?_
  simpa [CallOk, hop, hr, hr_allowed, hsplit] using hown

/-- A call begins to check. -/
theorem inv_begin (h : Inv q clients s) {c : Call} {before after : List Call}
    (ht : OnTurn s c before after) (hp : c.phase = .waiting) :
    Inv q clients (s.setPhase c.name (begin q c.op c.identity)) := by
  have hc : c ∈ s.calls := by simp [ht.calls]
  have hok := h.calls c hc
  rw [CallOk, hp] at hok
  have hbegin : begin q c.op c.identity = .checking (targets q c.identity) [] := by
    have := (h.known c hc).2
    rcases hop : c.op <;> simp_all [begin]
  rw [hbegin]
  exact inv_phase h ht ⟨hok, [], by simp, rfl, fun _ t ht => absurd ht List.not_mem_nil⟩

theorem inv_turn (h : Inv q clients s) (hfew : clients.length < q.maxIdentities) {c : Call}
    {before after : List Call} (ht : OnTurn s c before after) {u : State} {phase : Phase}
    (hturn : turn q s c = some (u, phase)) : Inv q clients (u.setPhase c.name phase) := by
  have hok := h.calls c (by simp [ht.calls])
  rw [turn] at hturn
  split at hturn
  · rename_i hp
    split at hturn
    · cases hturn
      exact inv_begin h ht hp
    · cases hturn
  · rename_i t todo decisions hp
    rcases hr : check (q.limiterFor t.policy) t.key s.now (s.windows t.slot) with ⟨l, r⟩
    rw [hr] at hturn
    cases hturn
    exact inv_check h hfew ht hp hr
  · rename_i hp
    cases hturn
    exact inv_decided h ht hp
  · rename_i t todo decisions hp
    rcases hr : consume (q.limiterFor t.policy) t.key s.now (s.windows t.slot) with ⟨l, r⟩
    obtain ⟨hallowed, hinv⟩ := inv_charge h hfew ht hp hr
    rw [hr] at hturn
    simp only [hallowed, if_true] at hturn
    cases hturn
    exact hinv
  · rename_i hp
    cases hturn
    exact inv_reported h ht hp
  · rename_i hp
    rw [CallOk, hp] at hok
    exact hok.elim
  · rename_i hp
    rw [CallOk, hp] at hok
    exact hok.elim
  · cases hturn

variable (clients) in
/-- A call of `check` or `consume` by a known client, or no call at all. -/
def Action.Charges : Action → Prop
  | .arrives _ op identity => identity ∈ clients ∧ op ≠ .reset
  | .goesOn _ | .ticks _ => True

theorem inv_arrives (h : Inv q clients s) {name : ℕ} (hname : name ∉ s.calls.map (·.name)) {op : Op}
    {identity : RateLimitIdentity} (hknown : identity ∈ clients ∧ op ≠ .reset) :
    Inv q clients { s with calls := s.calls ++ [⟨name, op, identity, .waiting⟩] } where
  names := by
    rw [List.map_append, List.nodup_append]
    refine ⟨h.names, List.nodup_singleton _, ?_⟩
    rintro a ha b hb rfl
    have heq : a = name := List.mem_singleton.mp hb
    exact hname (heq ▸ ha)
  known c hc := by
    rcases List.mem_append.mp hc with hc | hc
    · exact h.known c hc
    · rw [List.mem_singleton.mp hc]
      exact hknown
  turns := by
    refine List.pairwise_append.mpr ⟨h.turns, List.pairwise_singleton _ _, fun a _ b hb hnot => ?_⟩
    rw [List.mem_singleton.mp hb] at hnot
    exact absurd rfl hnot
  callers e he := by
    rw [List.map_append]
    exact List.mem_append_left _ (h.callers e he)
  tracks := h.tracks
  within := h.within
  calls c hc := by
    rcases List.mem_append.mp hc with hc | hc
    · exact h.calls c hc
    · rw [List.mem_singleton.mp hc]
      change chargedBy s.charges name = []
      refine List.map_eq_nil_iff.mpr (List.filter_eq_nil_iff.mpr fun e he heq => hname ?_)
      exact of_decide_eq_true heq ▸ h.callers e he

theorem inv_step (hfew : clients.length < q.maxIdentities) (a : Action) (t : State)
    (h : Inv q clients s) (ha : a.Charges clients) (hstep : step q s a = some t) :
    Inv q clients t := by
  cases a with
  | arrives name op identity =>
    obtain ⟨hname, ⟨⟩⟩ := Option.ite_none_left_eq_some.mp hstep
    exact inv_arrives h hname ha
  | goesOn name =>
    obtain ⟨c, hfind, hstep⟩ := Option.bind_eq_some_iff.mp hstep
    obtain ⟨⟨u, phase⟩, hturn, rfl⟩ := Option.map_eq_some_iff.mp hstep
    obtain ⟨rfl, before, after, ht⟩ := h.onTurn hfind hturn
    exact inv_turn h hfew ht hturn
  | ticks ms =>
    obtain rfl := Option.some.inj hstep
    have hle : s.now ≤ s.now + ms := by omega
    exact { h with
      tracks := fun slot policy hp => (h.tracks slot policy hp).later hle
      calls := fun c hc => (h.calls c hc).later hle }

/-! ### Taking checks out -/

/-- The call is kept, or the action is none of a call's. -/
def Action.kept (keep : ℕ → Bool) : Action → Bool
  | .arrives name _ _ | .goesOn name => keep name
  | .ticks _ => true

/-- Only calls of `check` are not kept. -/
def Action.DropsCheck (keep : ℕ → Bool) : Action → Prop
  | .arrives name op _ => keep name = false → op = .check
  | .goesOn _ | .ticks _ => True

variable (q clients) in
/-- The limiter without some calls of `check` that the other has served. -/
structure Without (keep : ℕ → Bool) (s s' : State) : Prop where
  inv : Inv q clients s
  inv' : Inv q clients s'
  calls : s'.calls = s.calls.filter fun c => keep c.name
  charges : s'.charges = s.charges
  now : s'.now = s.now
  checks : ∀ c ∈ s.calls, keep c.name = false → c.op = .check

/-- Two limiters with the same charges give the same answer. -/
theorem answers_agree {s' : State} (h : Inv q clients s) (h' : Inv q clients s')
    (hcharges : s'.charges = s.charges) (hnow : s'.now = s.now)
    (hfew : clients.length < q.maxIdentities) {c : Call} (hc : c ∈ s.calls) (hc' : c ∈ s'.calls)
    {t : Target} (hmem : t ∈ targets q c.identity) (charge : Bool) :
    (evaluate (q.limiterFor t.policy) t.key charge s'.now (s'.windows t.slot)).2 =
      (evaluate (q.limiterFor t.policy) t.key charge s.now (s.windows t.slot)).2 := by
  rw [(h.evaluate hfew hc hmem charge).1, (h'.evaluate hfew hc' hmem charge).1, hcharges, hnow]

theorem turn_agrees {keep : ℕ → Bool} {s' : State} (h : Without q clients keep s s')
    (hfew : clients.length < q.maxIdentities) {c : Call} {before after : List Call}
    (ht : OnTurn s c before after) (hkeep : keep c.name = true) {u : State} {phase : Phase}
    (hturn : turn q s c = some (u, phase)) :
    ∃ u', turn q s' c = some (u', phase) ∧ u'.charges = u.charges := by
  have hc : c ∈ s.calls := by simp [ht.calls]
  have hc' : c ∈ s'.calls := by
    rw [h.calls]
    exact List.mem_filter.mpr ⟨hc, hkeep⟩
  have hok := h.inv.calls c hc
  have hanswer : ∀ t ∈ targets q c.identity, ∀ charge,
      (evaluate (q.limiterFor t.policy) t.key charge s'.now (s'.windows t.slot)).2 =
        (evaluate (q.limiterFor t.policy) t.key charge s.now (s.windows t.slot)).2 :=
    fun t hmem charge => answers_agree h.inv h.inv' h.charges h.now hfew hc hc' hmem charge
  rw [turn] at hturn ⊢
  rcases hp : c.phase with _ | ⟨_ | ⟨t, todo⟩, decisions⟩ | ⟨_ | ⟨t, todo⟩, decisions⟩ | todo | r
  · -- every call before `c` is over, so the last that is kept is
    have hprevious : (previous c.name s'.calls).all (·.released) = true := by
      have hne : ∀ b ∈ before.filter fun b => keep b.name, b.name ≠ c.name :=
        fun b hb => ht.before_ne b (List.mem_filter.mp hb).1
      rw [previous, h.calls, ht.calls, List.filter_append,
        List.filter_cons_of_pos (p := fun c : Call => keep c.name) hkeep, takeWhile_names hne]
      refine (Option.all_eq_true _ _).mpr fun last hlast => ht.released last ?_
      exact (List.mem_filter.mp (List.mem_of_getLast? hlast)).1
    rw [hp] at hturn
    dsimp only at hturn ⊢
    split at hturn
    · cases hturn
      exact ⟨s', if_pos hprevious, h.charges⟩
    · cases hturn
  · rw [hp] at hturn
    cases hturn
    exact ⟨s', rfl, h.charges⟩
  · rw [CallOk, hp] at hok
    obtain ⟨-, done, hsplit, -⟩ := hok
    have hr := hanswer t (by simp [hsplit]) false
    rcases hl : check (q.limiterFor t.policy) t.key s.now (s.windows t.slot) with ⟨l, r⟩
    rcases hl' : check (q.limiterFor t.policy) t.key s'.now (s'.windows t.slot) with ⟨l', r'⟩
    rw [check] at hl hl'
    rw [hl, hl'] at hr
    obtain rfl : r' = r := hr
    rw [hp] at hturn
    simp only [check, hl, hl'] at hturn ⊢
    cases hturn
    exact ⟨s'.put t.slot l', rfl, h.charges⟩
  · rw [hp] at hturn
    cases hturn
    exact ⟨s', rfl, h.charges⟩
  · rw [CallOk, hp] at hok
    obtain ⟨-, -, -, done, hsplit, -⟩ := hok
    have hr := hanswer t (by simp [hsplit]) true
    rcases hl : consume (q.limiterFor t.policy) t.key s.now (s.windows t.slot) with ⟨l, r⟩
    rcases hl' : consume (q.limiterFor t.policy) t.key s'.now (s'.windows t.slot) with ⟨l', r'⟩
    rw [consume] at hl hl'
    rw [hl, hl'] at hr
    obtain rfl : r' = r := hr
    rw [hp] at hturn
    simp only [consume, hl, hl'] at hturn ⊢
    cases hturn
    refine ⟨_, rfl, ?_⟩
    simp only [h.charges, h.now]
  · rw [CallOk, hp] at hok
    exact hok.elim
  · rw [hp] at hturn
    cases hturn

/-- A call of `check` charges nothing. -/
theorem turn_check (h : Inv q clients s) {c : Call} (hc : c ∈ s.calls) (hop : c.op = .check)
    {u : State} {phase : Phase} (hturn : turn q s c = some (u, phase)) : u.charges = s.charges := by
  have hok := h.calls c hc
  rw [turn] at hturn
  split at hturn
  · split at hturn
    · cases hturn
      rfl
    · cases hturn
  · cases hturn
    rfl
  · cases hturn
    rfl
  · rename_i hp
    rw [CallOk, hp] at hok
    exact absurd (hop.symm.trans hok.1) (by simp)
  all_goals cases hturn <;> rfl

theorem filter_setPhase (keep : ℕ → Bool) (name : ℕ) (phase : Phase) (l : List Call) :
    (l.map fun c => if c.name = name then { c with phase := phase } else c).filter
      (fun c => keep c.name) = (l.filter fun c => keep c.name).map fun c =>
        if c.name = name then { c with phase := phase } else c := by
  rw [List.filter_map]
  congr 1
  refine List.filter_congr fun c _ => ?_
  simp only [Function.comp_apply]
  split <;> rfl

theorem checks_setPhase {keep : ℕ → Bool} {u : State}
    (h : ∀ c ∈ u.calls, keep c.name = false → c.op = .check) (name : ℕ) (phase : Phase) :
    ∀ c ∈ (u.setPhase name phase).calls, keep c.name = false → c.op = .check := by
  intro c hc hdrop
  obtain ⟨c, hmem, rfl⟩ := List.mem_map.mp hc
  by_cases heq : c.name = name
  · rw [if_pos heq] at hdrop ⊢
    exact h c hmem hdrop
  · rw [if_neg heq] at hdrop ⊢
    exact h c hmem hdrop

/-- A call that is kept goes on in both. -/
theorem without_goesOn {keep : ℕ → Bool} {s' : State} (h : Without q clients keep s s')
    (hfew : clients.length < q.maxIdentities) {name : ℕ} (hkeep : keep name = true) {t : State}
    (hstep : step q s (.goesOn name) = some t) :
    ∃ t', step q s' (.goesOn name) = some t' ∧ Without q clients keep t t' := by
  have hinv := inv_step hfew (.goesOn name) t h.inv trivial hstep
  obtain ⟨c, hfind, hstep⟩ := Option.bind_eq_some_iff.mp hstep
  obtain ⟨⟨u, phase⟩, hturn, rfl⟩ := Option.map_eq_some_iff.mp hstep
  obtain ⟨rfl, before, after, ht⟩ := h.inv.onTurn hfind hturn
  obtain ⟨u', hturn', hcharges⟩ := turn_agrees h hfew ht hkeep hturn
  have hfind' : s'.calls.find? (·.name = c.name) = some c := by
    refine List.find?_eq_some_iff_append.mpr ⟨by simp, before.filter fun b => keep b.name,
      after.filter fun b => keep b.name, ?_, fun b hb => ?_⟩
    · rw [h.calls, ht.calls, List.filter_append,
        List.filter_cons_of_pos (p := fun c : Call => keep c.name) hkeep]
    · simpa using ht.before_ne b (List.mem_filter.mp hb).1
  have hstep' : step q s' (.goesOn c.name) = some (u'.setPhase c.name phase) := by
    simp [step, hfind', hturn']
  refine ⟨_, hstep', hinv, inv_step hfew (.goesOn c.name) _ h.inv' trivial hstep', ?_,
    hcharges, ?_, ?_⟩
  · simp only [State.setPhase, (turn_calls hturn).1, (turn_calls hturn').1, h.calls,
      filter_setPhase]
  · exact (turn_calls hturn').2.trans (h.now.trans (turn_calls hturn).2.symm)
  · exact checks_setPhase ((turn_calls hturn).1 ▸ h.checks) _ _

/-- A call of `check` that is not kept leaves no trace. -/
theorem without_check {keep : ℕ → Bool} {s' : State} (h : Without q clients keep s s')
    (hfew : clients.length < q.maxIdentities) {name : ℕ} (hkeep : keep name = false) {t : State}
    (hstep : step q s (.goesOn name) = some t) : Without q clients keep t s' := by
  have hinv := inv_step hfew (.goesOn name) t h.inv trivial hstep
  obtain ⟨c, hfind, hstep⟩ := Option.bind_eq_some_iff.mp hstep
  obtain ⟨⟨u, phase⟩, hturn, rfl⟩ := Option.map_eq_some_iff.mp hstep
  obtain ⟨rfl, before, after, ht⟩ := h.inv.onTurn hfind hturn
  have hc : c ∈ s.calls := by simp [ht.calls]
  refine ⟨hinv, h.inv', ?_, ?_, h.now.trans (turn_calls hturn).2.symm, ?_⟩
  · have hsame : ((s.calls.filter fun b => keep b.name).map fun b =>
        if b.name = c.name then { b with phase := phase } else b) =
          s.calls.filter fun b => keep b.name := by
      refine (List.map_congr_left fun b hb => if_neg fun heq => ?_).trans (List.map_id _)
      have hkept := (List.mem_filter.mp hb).2
      rw [heq, hkeep] at hkept
      cases hkept
    simp only [State.setPhase, (turn_calls hturn).1, filter_setPhase, hsame, h.calls]
  · exact h.charges.trans (turn_check h.inv hc (h.checks c hc hkeep) hturn).symm
  · exact checks_setPhase ((turn_calls hturn).1 ▸ h.checks) _ _

theorem without_step {keep : ℕ → Bool} {s' : State} (h : Without q clients keep s s')
    (hfew : clients.length < q.maxIdentities) {a : Action} (ha : a.Charges clients)
    (hd : a.DropsCheck keep) {t : State} (hstep : step q s a = some t) :
    (a.kept keep = true ∧ ∃ t', step q s' a = some t' ∧ Without q clients keep t t') ∨
    (a.kept keep = false ∧ Without q clients keep t s') := by
  cases a with
  | arrives name op identity =>
    have hinv := inv_step hfew _ t h.inv ha hstep
    obtain ⟨hname, ⟨⟩⟩ := Option.ite_none_left_eq_some.mp hstep
    have hchecks : ∀ c ∈ s.calls ++ [⟨name, op, identity, .waiting⟩],
        keep c.name = false → c.op = .check := by
      intro c hc hdrop
      rcases List.mem_append.mp hc with hc | hc
      · exact h.checks c hc hdrop
      · rw [List.mem_singleton.mp hc] at hdrop ⊢
        exact hd hdrop
    cases hkeep : keep name with
    | true =>
      have hname' : name ∉ s'.calls.map (·.name) := by
        rw [h.calls]
        exact fun hm => hname ((List.filter_sublist.map _).subset hm)
      have hstep' : step q s' (.arrives name op identity) =
          some { s' with calls := s'.calls ++ [⟨name, op, identity, .waiting⟩] } := if_neg hname'
      refine .inl ⟨hkeep, _, hstep', hinv, inv_step hfew _ _ h.inv' ha hstep', ?_, h.charges,
        h.now, hchecks⟩
      simp [h.calls, hkeep]
    | false =>
      refine .inr ⟨hkeep, hinv, h.inv', ?_, h.charges, h.now, hchecks⟩
      simp [h.calls, hkeep]
  | goesOn name =>
    cases hkeep : keep name with
    | true => exact .inl ⟨hkeep, without_goesOn h hfew hkeep hstep⟩
    | false => exact .inr ⟨hkeep, without_check h hfew hkeep hstep⟩
  | ticks ms =>
    have hinv := inv_step hfew _ t h.inv ha hstep
    obtain rfl := Option.some.inj hstep
    refine .inl ⟨rfl, _, rfl, hinv, inv_step hfew (.ticks ms) _ h.inv' ha rfl, h.calls, h.charges,
      ?_, h.checks⟩
    simp [h.now]

/-- A run goes on the same without some of its calls of `check`. -/
theorem without_run {keep : ℕ → Bool} {s' t : State} (h : Without q clients keep s s')
    (hfew : clients.length < q.maxIdentities) {as : List Action}
    (ha : ∀ a ∈ as, a.Charges clients) (hd : ∀ a ∈ as, a.DropsCheck keep)
    (hrun : run (step q) s as = some t) :
    ∃ t', run (step q) s' (as.filter (·.kept keep)) = some t' ∧ Without q clients keep t t' := by
  induction as generalizing s s' with
  | nil =>
    rw [run_nil, Option.some.injEq] at hrun
    exact ⟨s', rfl, hrun ▸ h⟩
  | cons a as ih =>
    obtain ⟨u, hu, hrest⟩ := run_cons_some.mp hrun
    have ha' := fun b hb => ha b (List.mem_cons_of_mem _ hb)
    have hd' := fun b hb => hd b (List.mem_cons_of_mem _ hb)
    rcases without_step h hfew (ha a (List.mem_cons_self ..)) (hd a (List.mem_cons_self ..)) hu with
      ⟨hkept, u', hu', hw⟩ | ⟨hdropped, hw⟩
    · obtain ⟨t', ht', hwt⟩ := ih hw ha' hd' hrest
      rw [List.filter_cons_of_pos hkept]
      exact ⟨t', run_cons_some.mpr ⟨u', hu', ht'⟩, hwt⟩
    · obtain ⟨t', ht', hwt⟩ := ih hw ha' hd' hrest
      rw [List.filter_cons_of_neg (by simp [hdropped])]
      exact ⟨t', ht', hwt⟩

/-! ### Enforcement -/

variable (q) in
/-- Every key keeps within the limit of its limiter in every interval of the window's width, and a
    call that has returned has charged each of its keys once, or none of them. -/
structure Enforced (s : State) : Prop where
  within : ∀ slot policy, q.policy? slot = some policy → ∀ (key : String) (t : ℤ),
    (s.charges.filter fun e => e.slot = slot ∧ e.key = key ∧ t - policy.windowMs < e.time ∧
      e.time ≤ t).length ≤ policy.limit
  exact : ∀ c ∈ s.calls, ∀ r, c.phase = .returned r → chargedBy s.charges c.name =
    if c.op = .consume ∧ r.any (·.allowed) then
      (targets q c.identity).map (fun t => (t.slot, t.key))
    else []

theorem Inv.enforced (h : Inv q clients s) : Enforced q s where
  within slot policy hp key t := by
    have hwindow : (s.charges.filter fun e => e.slot = slot ∧ e.key = key ∧
        t - policy.windowMs < e.time ∧ e.time ≤ t).length =
          (window (policy.windowMs : ℤ) t (history s.charges slot key)).length := by
      rw [window, history, List.filter_map, List.length_map, List.filter_filter]
      congr 1
      refine List.filter_congr fun e _ => Bool.eq_iff_iff.mpr ?_
      simp only [Bool.and_eq_true, decide_eq_true_eq, Function.comp_apply]
      tauto
    rw [hwindow]
    exact h.within slot policy hp key t
  exact c hc r hr := by
    have := h.calls c hc
    rwa [CallOk, hr] at this

/-- Over every run of calls of `check` and `consume` by fewer clients than the limiters can track: the
    policies are enforced in every state, and taking calls of `check` out of the run changes neither
    the charges nor where any other call stands, its result included. -/
theorem quota_enforced (q : QuotaOptions) (clients : List RateLimitIdentity) (start : ℤ)
    (as : List Action) (hfew : clients.length < q.maxIdentities)
    (has : ∀ a ∈ as, a.Charges clients) :
    Everywhere (step q) (Enforced q) (init start) as ∧
    ∀ keep t, (∀ a ∈ as, a.DropsCheck keep) → run (step q) (init start) as = some t →
      ∃ t', run (step q) (init start) (as.filter (·.kept keep)) = some t' ∧
        t'.calls = t.calls.filter (fun c => keep c.name) ∧ t'.charges = t.charges := by
  refine ⟨?_, fun keep t hd hrun => ?_⟩
  · exact everywhere_of_along (fun s a t h ha ht => inv_step hfew a t h ha ht)
      (fun s h => h.enforced) as (inv_init start) (along_of_mem has _)
  · have hstart : Without q clients keep (init start) (init start) :=
      ⟨inv_init start, inv_init start, rfl, rfl, rfl, fun _ h => absurd h List.not_mem_nil⟩
    obtain ⟨t', ht', hw⟩ := without_run hstart hfew has hd hrun
    exact ⟨t', ht', hw.calls, hw.charges⟩

/-- One request in ten milliseconds for each identity, two for each organization. -/
def small : QuotaOptions where
  base := ⟨1, 10, Nat.succ_pos _, Nat.succ_pos _⟩
  policies
    | .organization => some ⟨2, 10, Nat.succ_pos _, Nat.succ_pos _⟩
    | _ => none
  maxIdentities := 3
  maxIdentities_pos := Nat.succ_pos _

/-- A client of one organization. -/
def clientOf (key : String) : RateLimitIdentity where
  dimensions
    | .organization => some "0a1b2c3d"
    | _ => none
  key := key

/-- Two calls of `consume` by one client and a `check` by another, which arrive together. -/
def burst : List Action :=
  [.arrives 0 .consume (clientOf "a"), .arrives 1 .check (clientOf "b"),
    .arrives 2 .consume (clientOf "a"), .goesOn 0, .ticks 1, .goesOn 0, .goesOn 0, .goesOn 0,
    .goesOn 0, .goesOn 0, .goesOn 0, .goesOn 1, .goesOn 1, .goesOn 1, .goesOn 1, .goesOn 2,
    .goesOn 2, .goesOn 2, .goesOn 2]

theorem burst_enforced : Everywhere (step small) (Enforced small) (init 0) burst ∧
    ∃ t t', run (step small) (init 0) burst = some t ∧
      run (step small) (init 0) (burst.filter (·.kept (· ≠ 1))) = some t' ∧
        t'.calls = t.calls.filter (fun c => c.name ≠ 1) ∧ t'.charges = t.charges := by
  have hcharges : ∀ a ∈ burst, a.Charges [clientOf "a", clientOf "b"] := by
    simp [burst, Action.Charges]
  have hdrops : ∀ a ∈ burst, a.DropsCheck fun name => name ≠ 1 := by
    simp [burst, Action.DropsCheck]
  obtain ⟨t, ht⟩ : ∃ t, run (step small) (init 0) burst = some t :=
    Option.isSome_iff_exists.mp (by decide)
  have h := quota_enforced small [clientOf "a", clientOf "b"] 0 burst (by decide) hcharges
  obtain ⟨t', ht'⟩ := h.2 _ t hdrops ht
  exact ⟨h.1, t, t', ht, ht'⟩

end Remembra.Quota.QuotaRateLimiter
