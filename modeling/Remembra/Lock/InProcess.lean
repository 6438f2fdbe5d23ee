import Mathlib.Data.Finset.Basic
import Remembra.Lib.Indexed
import Remembra.Lib.OrdMap
import Remembra.Lib.Transition
import Remembra.Lock.Provider

/-! The in-process lock provider: one map from key to `{ owner, expiresAt }`, and handles that close
    over a key and an owner. An entry does not say which acquisition made it, so a handle can only
    compare owners.

    A lost lease stays lost per handle (`LostStaysLost`) exactly in the runs in which no key is
    taken under an owner string that an earlier handle of the key already carries
    (`lost_stays_lost_iff`). The default owner is one string for the whole process, so two callers
    that leave `owner` out already leave those runs (`default_owner_revives_lost_lease`). -/

namespace Remembra.Lock.InProcess
open Transition

structure Entry where
  owner : String
  expiresAt : ℤ

structure Provider where
  entries : OrdMap String Entry
  /-- Leases this process currently believes it holds. -/
  held : Finset String
  /-- Reclaimed because they aged out. -/
  reclaimed : ℕ

/-- A handle is what its closures read: the key and the owner, as `info` shows them. -/
structure Handle where
  info : LockInfo

/-- What one pass of the loop in `acquire` ends with. -/
inductive Turn where
  | returned (handle : Handle)
  | refused (error : LockTimeout)
  | asleep (ms : ℤ)

namespace Provider

def handle (p : Provider) (now : ℤ) (key owner : String) : Provider × Handle :=
  ({ p with held := insert key p.held },
    ⟨⟨key, owner, ((p.entries.get key).map Entry.expiresAt).getD now⟩⟩)

/-- Write the entry and hand out its handle. -/
def take (p : Provider) (now : ℤ) (c : AcquireCall) : Provider × Handle :=
  handle { p with entries := p.entries.set c.key ⟨c.owner, now + c.leaseMs⟩ } now c.key c.owner

/-- The key can be taken: no entry, or one that has expired. -/
def free (p : Provider) (now : ℤ) (key : String) : Bool :=
  match p.entries.get key with
  | none => true
  | some existing => existing.expiresAt ≤ now

/-- One pass of the loop of `acquire`, from one `await` to the next. -/
def acquireTurn (p : Provider) (now : ℤ) (c : AcquireCall) : Provider × Turn :=
  match p.entries.get c.key with
  | none => let r := take p now c; (r.1, .returned r.2)
  | some existing =>
    if existing.expiresAt ≤ now then
      let r := take { p with reclaimed := p.reclaimed + 1 } now c; (r.1, .returned r.2)
    else if now ≥ c.deadline then (p, .refused (.heldBy c.key existing.owner))
    else (p, .asleep (sleepMs c.pollMs c.deadline now))

def inspect (p : Provider) (now : ℤ) (key : String) : Provider × Option LockInfo :=
  match p.entries.get key with
  | none => (p, none)
  | some entry =>
    if entry.expiresAt ≤ now then
      ({ p with entries := p.entries.delete key, reclaimed := p.reclaimed + 1 }, none)
    else (p, some ⟨key, entry.owner, entry.expiresAt⟩)

/-- Drop every expired lease, and say how many there were. -/
def sweep (p : Provider) (now : ℤ) : Provider × ℕ :=
  let kept := p.entries.filter fun _ entry => now < entry.expiresAt
  let expired := p.entries.filter fun _ entry => entry.expiresAt ≤ now
  ({ entries := kept, held := p.held \ expired.keys.toFinset,
     reclaimed := p.reclaimed + expired.size }, expired.size)

end Provider

namespace Handle

def isHeld (h : Handle) (p : Provider) (now : ℤ) : Bool :=
  match p.entries.get h.info.key with
  | none => false
  | some entry => entry.owner = h.info.owner && now < entry.expiresAt

def renew (h : Handle) (p : Provider) (now : ℤ) (leaseMs : Option ℤ) : Provider × Bool :=
  match p.entries.get h.info.key with
  | none => (p, false)
  | some entry =>
    if entry.owner ≠ h.info.owner ∨ entry.expiresAt ≤ now then (p, false)
    else ({ p with entries :=
      p.entries.set h.info.key { entry with expiresAt := now + leaseMs.getD defaultLeaseMs } }, true)

/-- Owner-checked: never clear a lease a peer has since taken. -/
def release (h : Handle) (p : Provider) : Provider × Bool :=
  match p.entries.get h.info.key with
  | none => (p, false)
  | some entry =>
    if entry.owner ≠ h.info.owner then (p, false)
    else ({ p with entries := p.entries.delete h.info.key, held := p.held.erase h.info.key }, true)

end Handle

/-! ### Runs -/

/-- The process: its clock, the provider, the `acquire` calls asleep between two polls with the time
    each wakes at, and every handle returned so far, oldest first. -/
structure State where
  now : ℤ
  provider : Provider
  sleeping : List (AcquireCall × ℤ)
  handles : List Handle

def init (now : ℤ) : State := ⟨now, ⟨.empty, ∅, 0⟩, [], []⟩

inductive Action where
  | acquire (key : String) (options : LockOptions)
  /-- The `i`-th sleeping `acquire` wakes up and goes round its loop again. -/
  | poll (i : ℕ)
  | renew (h : ℕ) (leaseMs : Option ℤ)
  | release (h : ℕ)
  | inspect (key : String)
  | sweep
  | advance (ms : ℕ)

/-- One pass of an `acquire` loop, with what its outcome adds to the process. -/
def turn (s : State) (c : AcquireCall) : State :=
  match s.provider.acquireTurn s.now c with
  | (p, .returned h) => { s with provider := p, handles := s.handles ++ [h] }
  | (p, .refused _) => { s with provider := p }
  | (p, .asleep ms) => { s with provider := p, sleeping := s.sleeping ++ [(c, s.now + ms)] }

/-- `self` is the owner every caller of the process defaults to. -/
def step (self : String) (s : State) : Action → Option State
  | .acquire key options => some (turn s (.start self s.now key options))
  | .poll i =>
    match s.sleeping[i]? with
    | none => none
    | some (c, wake) =>
      if wake ≤ s.now then some (turn { s with sleeping := s.sleeping.eraseIdx i } c) else none
  | .renew h leaseMs => (s.handles[h]?).map fun h =>
      { s with provider := (h.renew s.provider s.now leaseMs).1 }
  | .release h => (s.handles[h]?).map fun h => { s with provider := (h.release s.provider).1 }
  | .inspect key => some { s with provider := (s.provider.inspect s.now key).1 }
  | .sweep => some { s with provider := (s.provider.sweep s.now).1 }
  | .advance ms => some { s with now := s.now + ms }

/-- The `acquire` call that goes round its loop in this step, if the step is one. -/
def calling (self : String) (s : State) : Action → Option AcquireCall
  | .acquire key options => some (.start self s.now key options)
  | .poll i => (s.sleeping[i]?).map Prod.fst
  | _ => none

/-! ### What one step can do -/

/-- `p'` holds no entry but those of `p`, under the owners they have there. -/
def OwnersWithin (p' p : Provider) : Prop :=
  ∀ k e, p'.entries.get k = some e → ∃ e', p.entries.get k = some e' ∧ e'.owner = e.owner

theorem OwnersWithin.refl (p : Provider) : OwnersWithin p p := fun _ e he => ⟨e, he, rfl⟩

theorem renew_ownersWithin (h : Handle) (p : Provider) (now : ℤ) (ms : Option ℤ) :
    OwnersWithin (h.renew p now ms).1 p := by
  unfold Handle.renew
  split
  · exact .refl p
  · rename_i entry hentry
    split
    · exact .refl p
    · intro k e he
      rw [OrdMap.get_set] at he
      by_cases hk : k = h.info.key
      · rw [if_pos hk, Option.some.injEq] at he
        exact ⟨entry, hk ▸ hentry, by rw [← he]⟩
      · rw [if_neg hk] at he
        exact ⟨e, he, rfl⟩

theorem delete_ownersWithin (p : Provider) (k : String) (held : Finset String) (n : ℕ) :
    OwnersWithin ⟨p.entries.delete k, held, n⟩ p := by
  intro k' e he
  rw [OrdMap.get_delete] at he
  split at he
  · cases he
  · exact ⟨e, he, rfl⟩

theorem release_ownersWithin (h : Handle) (p : Provider) : OwnersWithin (h.release p).1 p := by
  unfold Handle.release
  split
  · exact .refl p
  · split
    · exact .refl p
    · exact delete_ownersWithin p _ _ _

theorem inspect_ownersWithin (p : Provider) (now : ℤ) (k : String) :
    OwnersWithin (p.inspect now k).1 p := by
  unfold Provider.inspect
  split
  · exact .refl p
  · split
    · exact delete_ownersWithin p _ _ _
    · exact .refl p

theorem sweep_ownersWithin (p : Provider) (now : ℤ) : OwnersWithin (p.sweep now).1 p := by
  intro k e he
  change (p.entries.filter _).get k = some e at he
  rw [OrdMap.get_filter, Option.filter_eq_some_iff] at he
  exact ⟨e, he.1, rfl⟩

/-- A pass of `acquire` takes a free key, and with it makes the newest handle, or changes neither
    the provider nor the handles. -/
theorem turn_cases (s : State) (c : AcquireCall) :
    (s.provider.free s.now c.key = true ∧
      (turn s c).provider.entries = s.provider.entries.set c.key ⟨c.owner, s.now + c.leaseMs⟩ ∧
      ∃ h, (turn s c).handles = s.handles ++ [h] ∧ h.info.key = c.key ∧ h.info.owner = c.owner) ∨
    (s.provider.free s.now c.key = false ∧ (turn s c).provider = s.provider ∧
      (turn s c).handles = s.handles) := by
  unfold turn Provider.acquireTurn Provider.free
  cases hget : s.provider.entries.get c.key with
  | none => exact .inl ⟨rfl, rfl, _, rfl, rfl, rfl⟩
  | some existing =>
    by_cases hexp : existing.expiresAt ≤ s.now
    · simp only [hexp, if_true, decide_true]
      exact .inl ⟨trivial, rfl, _, rfl, rfl, rfl⟩
    · simp only [hexp, if_false, decide_false]
      by_cases hdl : s.now ≥ c.deadline
      · simp [hdl]
      · simp [hdl]

/-- A step is a pass of an `acquire` call, or it only drops or extends entries. -/
theorem step_cases {self : String} {s t : State} {a : Action} (h : step self s a = some t) :
    (∃ c s', calling self s a = some c ∧ t = turn s' c ∧ s'.now = s.now ∧
      s'.provider = s.provider ∧ s'.handles = s.handles) ∨
    (calling self s a = none ∧ OwnersWithin t.provider s.provider ∧ t.handles = s.handles) := by
  cases a with
  | acquire key options =>
    cases h
    exact .inl ⟨_, s, rfl, rfl, rfl, rfl, rfl⟩
  | poll i =>
    simp only [step] at h
    split at h
    · cases h
    · rename_i c wake hi
      split at h
      · cases h
        exact .inl ⟨c, _, by simp [calling, hi], rfl, rfl, rfl, rfl⟩
      · cases h
  | renew i ms =>
    obtain ⟨h', -, rfl⟩ := Option.map_eq_some_iff.mp h
    exact .inr ⟨rfl, renew_ownersWithin _ _ _ _, rfl⟩
  | release i =>
    obtain ⟨h', -, rfl⟩ := Option.map_eq_some_iff.mp h
    exact .inr ⟨rfl, release_ownersWithin _ _, rfl⟩
  | inspect key =>
    cases h
    exact .inr ⟨rfl, inspect_ownersWithin _ _ _, rfl⟩
  | sweep =>
    cases h
    exact .inr ⟨rfl, sweep_ownersWithin _ _, rfl⟩
  | advance ms =>
    cases h
    exact .inr ⟨rfl, .refl _, rfl⟩

/-! ### A lost lease stays lost -/

/-- A handle whose key another `acquire` has taken since is dead: it reports nothing held, and
    neither `renew` nor `release` succeeds or changes the provider. So one handle per key at most
    reports `isHeld`. -/
structure LostStaysLost (s : State) : Prop where
  dead : ∀ {i j : ℕ} {h h' : Handle}, s.handles[i]? = some h → s.handles[j]? = some h' → i < j →
    h.info.key = h'.info.key → h.isHeld s.provider s.now = false ∧
      (∀ ms, h.renew s.provider s.now ms = (s.provider, false)) ∧
      h.release s.provider = (s.provider, false)
  unique : ∀ {i j : ℕ} {h h' : Handle}, s.handles[i]? = some h → s.handles[j]? = some h' →
    h.info.key = h'.info.key → h.isHeld s.provider s.now = true →
    h'.isHeld s.provider s.now = true → i = j

/-- An `acquire` that finds its key free carries an owner string that no earlier handle of the key
    carries. -/
def FreshOwner (self : String) (s : State) (a : Action) : Prop :=
  ∀ c, calling self s a = some c → s.provider.free s.now c.key = true →
    ∀ h ∈ s.handles, h.info.key = c.key → h.info.owner ≠ c.owner

/-- No two handles of a key share an owner, and an entry belongs to the newest handle of its key. -/
structure Inv (s : State) : Prop where
  distinct : ∀ {i j : ℕ} {h h' : Handle}, s.handles[i]? = some h → s.handles[j]? = some h' → i < j →
    h.info.key = h'.info.key → h.info.owner ≠ h'.info.owner
  newest : ∀ {k : String} {e : Entry}, s.provider.entries.get k = some e →
    ∃ (i : ℕ) (h : Handle), s.handles[i]? = some h ∧ h.info.key = k ∧ h.info.owner = e.owner ∧
      ∀ (j : ℕ) (h' : Handle), s.handles[j]? = some h' → h'.info.key = k → j ≤ i

theorem inv_init (now : ℤ) : Inv (init now) := by
  constructor
  · intro i j h h' hi
    simp [init] at hi
  · intro k e he
    simp [init] at he

theorem inv_step {self : String} (s : State) (a : Action) (t : State) (hI : Inv s)
    (hok : FreshOwner self s a) (h : step self s a = some t) : Inv t := by
  rcases step_cases h with ⟨c, s', hc, rfl, hnow, hp, hh⟩ | ⟨-, hown, hh⟩
  · rcases turn_cases s' c with ⟨hfree, hset, h₀, hh₀, hkey, howner⟩ | ⟨-, hp', hh'⟩
    · rw [hnow, hp] at hfree
      have hfresh := hok c hc hfree
      rw [hh] at hh₀
      rw [hp] at hset
      constructor
      · intro i j h₁ h₂ hi hj hij hk
        rw [hh₀, Indexed.getElem?_concat] at hi hj
        rcases hi with hi | ⟨rfl, rfl⟩ <;> rcases hj with hj | ⟨rfl, rfl⟩
        · exact hI.distinct hi hj hij hk
        · rw [howner]
          exact hfresh h₁ (List.mem_of_getElem? hi) (hk.trans hkey)
        · exact absurd (List.getElem?_eq_some_iff.mp hj).1 (by omega)
        · omega
      · intro k e he
        rw [hset, OrdMap.get_set] at he
        by_cases hk : k = c.key
        · -- the entry just written: its handle is the one appended
          rw [if_pos hk, Option.some.injEq] at he
          refine ⟨s.handles.length, h₀, ?_, by rw [hkey, hk], by rw [howner, ← he], ?_⟩
          · rw [hh₀, Indexed.getElem?_concat]; exact .inr ⟨rfl, rfl⟩
          · intro j h' hj _
            rw [hh₀, Indexed.getElem?_concat] at hj
            rcases hj with hj | ⟨rfl, -⟩
            · exact Nat.le_of_lt (List.getElem?_eq_some_iff.mp hj).1
            · exact Nat.le_refl _
        · rw [if_neg hk] at he
          obtain ⟨i, h', hi, hik, hio, hmax⟩ := hI.newest he
          refine ⟨i, h', by rw [hh₀, Indexed.getElem?_concat]; exact .inl hi, hik, hio, ?_⟩
          intro j h'' hj hjk
          rw [hh₀, Indexed.getElem?_concat] at hj
          rcases hj with hj | ⟨-, rfl⟩
          · exact hmax j h'' hj hjk
          · exact absurd (hjk.symm.trans hkey) hk
    · constructor
      · rw [hh', hh]; exact hI.distinct
      · rw [hp', hp, hh', hh]; exact hI.newest
  · constructor
    · rw [hh]; exact hI.distinct
    · intro k e he
      obtain ⟨e', he', ho⟩ := hown k e he
      rw [hh, ← ho]
      exact hI.newest he'

/-- A handle whose owner is not the entry's is dead. -/
theorem dead_of_owner_ne {h : Handle} {p : Provider} {now : ℤ}
    (hne : ∀ e, p.entries.get h.info.key = some e → e.owner ≠ h.info.owner) :
    h.isHeld p now = false ∧ (∀ ms, h.renew p now ms = (p, false)) ∧ h.release p = (p, false) := by
  unfold Handle.isHeld Handle.renew Handle.release
  cases hget : p.entries.get h.info.key with
  | none => simp
  | some e => simp [hne e hget]

theorem lost_of_inv (s : State) (hI : Inv s) : LostStaysLost s := by
  have hdead : ∀ {i j : ℕ} {h h' : Handle}, s.handles[i]? = some h → s.handles[j]? = some h' →
      i < j → h.info.key = h'.info.key → h.isHeld s.provider s.now = false ∧
        (∀ ms, h.renew s.provider s.now ms = (s.provider, false)) ∧
        h.release s.provider = (s.provider, false) := by
    intro i j h h' hi hj hij hk
    refine dead_of_owner_ne fun e he => ?_
    obtain ⟨m, hm, hmm, hmk, hmo, hmax⟩ := hI.newest he
    have hjm : j ≤ m := hmax j h' hj hk.symm
    rw [← hmo]
    exact (hI.distinct hi hmm (by omega) hmk.symm).symm
  refine ⟨hdead, ?_⟩
  intro i j h h' hi hj hk hheld hheld'
  rcases Nat.lt_trichotomy i j with hij | hij | hij
  · rw [(hdead hi hj hij hk).1] at hheld; cases hheld
  · exact hij
  · rw [(hdead hj hi hij hk.symm).1] at hheld'; cases hheld'

/-- Taking a key under the owner of an earlier handle lets that handle release the new lease. -/
theorem not_lost_of_reused_owner {self : String} (s : State) (a : Action) (t : State)
    (hbad : ¬ FreshOwner self s a) (h : step self s a = some t) : ¬ LostStaysLost t := by
  intro hlaw
  simp only [FreshOwner, not_forall, ne_eq, not_not] at hbad
  obtain ⟨c, hc, hfree, h₁, hmem, hk, ho⟩ := hbad
  rcases step_cases h with ⟨c', s', hc', rfl, hnow, hp, hh⟩ | ⟨hnone, -, -⟩
  · obtain rfl : c = c' := Option.some.inj (hc.symm.trans hc')
    rcases turn_cases s' c with ⟨-, hset, h₀, hh₀, hkey, -⟩ | ⟨hnf, -, -⟩
    · obtain ⟨i, hi⟩ := List.mem_iff_getElem?.mp hmem
      have hlen : i < s.handles.length := (List.getElem?_eq_some_iff.mp hi).1
      rw [hh] at hh₀
      have hget : (turn s' c).provider.entries.get h₁.info.key
          = some ⟨c.owner, s'.now + c.leaseMs⟩ := by
        rw [hset, hk, OrdMap.get_set_self]
      have hold : (turn s' c).handles[i]? = some h₁ := by
        rw [hh₀, Indexed.getElem?_concat]; exact .inl hi
      have hnew : (turn s' c).handles[s.handles.length]? = some h₀ := by
        rw [hh₀, Indexed.getElem?_concat]; exact .inr ⟨rfl, rfl⟩
      have hrel := (hlaw.dead hold hnew hlen (hk.trans hkey.symm)).2.2
      simp [Handle.release, hget, ho] at hrel
    · rw [hnow, hp, hfree] at hnf; cases hnf
  · rw [hc] at hnone; cases hnone

/-- Over every run: lost leases stay lost in every state visited if and only if every `acquire` that
    takes a key does so under an owner string new to that key. -/
theorem lost_stays_lost_iff (self : String) (now : ℤ) (actions : List Action) :
    Everywhere (step self) LostStaysLost (init now) actions ↔
      Along (step self) (FreshOwner self) (init now) actions :=
  everywhere_iff_along inv_step lost_of_inv
    (fun s a t _ hbad h => not_lost_of_reused_owner s a t hbad h) (inv_init now) actions

/-- Two callers of one process, neither naming an owner: the first lets its lease lapse, the second
    takes the key, and then both handles report it held, and the first one renews the lease of the
    second and, releasing, clears it. -/
theorem default_owner_revives_lost_lease :
    ∃ s h h', run (step "4242-0a1b2c3d") (init 0)
        [.acquire "maintenance/x" { leaseMs := some 1000 }, .advance 1001,
         .acquire "maintenance/x" { leaseMs := some 1000 }] = some s ∧
      s.handles = [h, h'] ∧ h.info.expiresAt < s.now ∧
      h.isHeld s.provider s.now = true ∧ h'.isHeld s.provider s.now = true ∧
      (h.renew s.provider s.now none).2 = true ∧ (h.release s.provider).2 = true ∧
      h'.isHeld (h.release s.provider).1 s.now = false ∧ ¬ LostStaysLost s := by
  refine ⟨_, _, _, rfl, rfl, by decide, by decide, by decide, by decide, by decide, by decide,
    fun hlaw => ?_⟩
  exact absurd (hlaw.unique (i := 0) (j := 1) rfl rfl rfl (by decide) (by decide)) (by decide)

end Remembra.Lock.InProcess
