import Mathlib.Algebra.Order.Group.Int
import Remembra.Lib.OrdMap
import Remembra.Lib.SlidingWindow
import Remembra.Lib.Table

/-! The in-process rate limiter: a sliding window of timestamps for each tracked identity, pruned when
    it is read and swept every so often. As long as fewer identities are tracked than the ceiling
    allows, what it forgets is what no decision reads: it decides as a limiter that remembers every
    charge would (`evaluate_tracks`). -/

namespace Remembra.Quota
open SlidingWindow

inductive RateLimitDimension where
  | global | organization | project | user | agent | apikey | ip | endpoint | provider
  deriving DecidableEq

/-- The default precedence order. -/
def rateLimitDimensions : List RateLimitDimension :=
  [.global, .organization, .project, .user, .agent, .apikey, .ip, .endpoint, .provider]

def RateLimitDimension.name : RateLimitDimension → String
  | .global => "global"
  | .organization => "organization"
  | .project => "project"
  | .user => "user"
  | .agent => "agent"
  | .apikey => "apikey"
  | .ip => "ip"
  | .endpoint => "endpoint"
  | .provider => "provider"

structure RateLimitIdentity where
  dimensions : RateLimitDimension → Option String
  key : String

structure RateLimitResult where
  allowed : Bool
  remaining : ℕ
  retryAfterMs : ℤ
  limit : ℕ
  windowMs : ℕ
  dimension : Option RateLimitDimension
  deriving DecidableEq

def defaultSweepEvery : ℕ := 256

/-- The options that pass the checks of the constructor. -/
structure RateLimiterOptions where
  limit : ℕ
  windowMs : ℕ
  maxIdentities : ℕ
  sweepEvery : ℕ
  limit_pos : 0 < limit
  windowMs_pos : 0 < windowMs
  maxIdentities_pos : 0 < maxIdentities
  sweepEvery_pos : 0 < sweepEvery

structure Window where
  timestamps : List ℤ
  lastAccess : ℕ
  deriving DecidableEq

/-- What an `InProcessRateLimiter` keeps. -/
structure InProcess where
  windows : OrdMap String Window
  accessCounter : ℕ
  operations : ℕ
  evicted : ℕ

def InProcess.empty : InProcess := ⟨.empty, 0, 0, 0⟩

/-- The timestamps kept for a key. -/
def InProcess.timestamps (l : InProcess) (key : String) : List ℤ :=
  (l.windows.get key).elim [] (·.timestamps)

variable (o : RateLimiterOptions)

/-- The newest timestamp has aged out, or there is none. -/
def Window.expired (now : ℤ) (window : Window) : Bool :=
  match window.timestamps.getLast? with
  | none => true
  | some newest => now - newest ≥ o.windowMs

def sweep (now : ℤ) (l : InProcess) : InProcess :=
  { l with windows := l.windows.filter fun _ window => ¬ window.expired o now }

def evict (now : ℤ) (l : InProcess) : InProcess :=
  let l := sweep o now l
  if l.windows.size < o.maxIdentities then l
  else
    match firstMin (fun a b => a.2.lastAccess < b.2.lastAccess) l.windows.entries with
    | none => l
    | some oldest => { l with windows := l.windows.delete oldest.1, evicted := l.evicted + 1 }

/-- The map is bounded before a new identity is admitted. -/
def openWindow (key : String) (now : ℤ) (l : InProcess) : InProcess :=
  match l.windows.get key with
  | some _ => l
  | none =>
    let l := if l.windows.size ≥ o.maxIdentities then evict o now l else l
    { l with
      windows := l.windows.set key ⟨[], l.accessCounter⟩
      accessCounter := l.accessCounter + 1 }

/-- What `evaluate` answers when `live` are the timestamps that have not aged out. -/
def result (live : List ℤ) (charge : Bool) (now : ℤ) : RateLimitResult :=
  let allowed := decide (live.length < o.limit)
  { allowed := allowed
    remaining := o.limit - live.length - if charge ∧ allowed then 1 else 0
    retryAfterMs :=
      if allowed then 0 else live.head?.elim 0 fun oldest => max 0 (oldest + o.windowMs - now)
    limit := o.limit
    windowMs := o.windowMs
    dimension := none }

def evaluate (key : String) (charge : Bool) (now : ℤ) (l : InProcess) :
    InProcess × RateLimitResult :=
  let l := openWindow o key now l
  let live := (l.timestamps key).dropWhile fun timestamp => now - timestamp ≥ o.windowMs
  let r := result o live charge now
  let timestamps := if charge ∧ r.allowed then live ++ [now] else live
  let l := { l with
    windows := l.windows.set key ⟨timestamps, l.accessCounter⟩
    accessCounter := l.accessCounter + 1
    operations := l.operations + 1 }
  (if l.operations % o.sweepEvery = 0 then sweep o now l else l, r)

def check (key : String) (now : ℤ) (l : InProcess) : InProcess × RateLimitResult :=
  evaluate o key false now l

def consume (key : String) (now : ℤ) (l : InProcess) : InProcess × RateLimitResult :=
  evaluate o key true now l

def reset (key : String) (l : InProcess) : InProcess :=
  { l with windows := l.windows.delete key }

/-! ### Remembering everything -/

/-- The limiter keeps of `history`, the times at which each key was charged, all that is young, and
    tracks no key but `keys`. -/
structure Tracks (keys : List String) (now : ℤ) (history : String → List ℤ) (l : InProcess) :
    Prop where
  sorted : ∀ key, (l.timestamps key).Pairwise (· ≤ ·)
  past : ∀ key, ∀ timestamp ∈ l.timestamps key, timestamp ≤ now
  live : ∀ key t, now ≤ t →
    live (o.windowMs : ℤ) t (l.timestamps key) = live (o.windowMs : ℤ) t (history key)
  known : ∀ key ∈ l.windows.keys, key ∈ keys

variable {o} {keys : List String} {now : ℤ} {history : String → List ℤ} {l : InProcess}

theorem tracks_empty : Tracks o keys now (fun _ => []) .empty :=
  ⟨fun _ => List.Pairwise.nil, fun _ _ h => absurd h List.not_mem_nil, fun _ _ _ => rfl,
    fun _ h => absurd h List.not_mem_nil⟩

/-- The clock goes on. -/
theorem Tracks.later (h : Tracks o keys now history l) {now' : ℤ} (hle : now ≤ now') :
    Tracks o keys now' history l :=
  { h with
    past := fun key timestamp ht => (h.past key timestamp ht).trans hle
    live := fun key t ht => h.live key t (hle.trans ht) }

theorem Tracks.size_le (h : Tracks o keys now history l) : l.windows.size ≤ keys.length := by
  have hlen : l.windows.keys.length = l.windows.size := List.length_map ..
  rw [← hlen]
  exact List.Nodup.length_le_of_subset l.windows.nodup h.known

/-- A window is written that keeps what is young of its own history. -/
theorem Tracks.set (h : Tracks o keys now history l) {key : String} (hk : key ∈ keys)
    {timestamps : List ℤ} (hsorted : timestamps.Pairwise (· ≤ ·))
    (hpast : ∀ timestamp ∈ timestamps, timestamp ≤ now) {history' : String → List ℤ}
    (hother : ∀ k, k ≠ key → history' k = history k)
    (hlive : ∀ t, now ≤ t →
      SlidingWindow.live (o.windowMs : ℤ) t timestamps =
        SlidingWindow.live (o.windowMs : ℤ) t (history' key))
    (lastAccess accessCounter operations : ℕ) : Tracks o keys now history' { l with
      windows := l.windows.set key ⟨timestamps, lastAccess⟩
      accessCounter := accessCounter
      operations := operations } := by
  have hread : ∀ k, ({ l with
      windows := l.windows.set key ⟨timestamps, lastAccess⟩
      accessCounter := accessCounter
      operations := operations } : InProcess).timestamps k =
        if k = key then timestamps else l.timestamps k := by
    intro k
    rw [InProcess.timestamps, OrdMap.get_set]
    split <;> rfl
  refine ⟨fun k => ?_, fun k => ?_, fun k t ht => ?_, fun k hmem => ?_⟩
  · rw [hread]
    split
    · exact hsorted
    · exact h.sorted k
  · rw [hread]
    split
    · exact hpast
    · exact h.past k
  · rw [hread]
    split
    · rename_i hkey
      rw [hkey]
      exact hlive t ht
    · rename_i hkey
      rw [hother k hkey]
      exact h.live k t ht
  · by_contra hnot
    have hne : k ≠ key := fun hkey => hnot (hkey ▸ hk)
    have hnone : l.windows.get k = none := OrdMap.get_eq_none.mpr fun hm => hnot (h.known k hm)
    refine OrdMap.get_eq_none.mp ?_ hmem
    rw [OrdMap.get_set_ne _ hne]
    exact hnone

/-- A reset forgets the charges of its key. -/
theorem Tracks.reset (h : Tracks o keys now history l) (key : String) :
    Tracks o keys now (Function.update history key []) (reset key l) := by
  have hread : ∀ k, (Quota.reset key l).timestamps k = if k = key then [] else l.timestamps k := by
    intro k
    rw [InProcess.timestamps, Quota.reset, OrdMap.get_delete]
    split <;> rfl
  refine ⟨fun k => ?_, fun k => ?_, fun k t ht => ?_, fun k hmem => h.known k ?_⟩
  · rw [hread]
    split
    · exact List.Pairwise.nil
    · exact h.sorted k
  · rw [hread]
    split
    · exact fun _ hx => by cases hx
    · exact h.past k
  · rw [hread]
    split
    · rename_i hkey
      rw [hkey, Function.update_self]
    · rename_i hkey
      rw [Function.update_of_ne hkey]
      exact h.live k t ht
  · exact (List.filter_sublist.map Prod.fst).subset hmem

/-- A full window asks to wait. -/
theorem retry_pos {young : List ℤ} {charge : Bool} (hyoung : ∀ x ∈ young, now - x < o.windowMs)
    (hfull : ¬ young.length < o.limit) : 0 < (result o young charge now).retryAfterMs := by
  have hlimit := o.limit_pos
  rw [result]
  dsimp only
  rw [if_neg (by simpa using hfull)]
  cases young with
  | nil => exact absurd hlimit hfull
  | cons oldest young =>
    have hold := hyoung oldest (List.mem_cons_self ..)
    exact lt_max_of_lt_right (by omega)

/-- In a window that has expired everything is old. -/
theorem Window.live_of_expired {window : Window} (hsorted : window.timestamps.Pairwise (· ≤ ·))
    (hexpired : window.expired o now = true) {t : ℤ} (ht : now ≤ t) :
    SlidingWindow.live (o.windowMs : ℤ) t window.timestamps = [] := by
  rw [Window.expired] at hexpired
  split at hexpired
  · rename_i hnone
    simp [List.getLast?_eq_none_iff.mp hnone]
  · rename_i newest hnewest
    refine live_eq_nil_of_newest hsorted hnewest ?_
    have : (o.windowMs : ℤ) ≤ now - newest := of_decide_eq_true hexpired
    omega

/-- A sweep forgets only what is old. -/
theorem Tracks.sweep (h : Tracks o keys now history l) :
    Tracks o keys now history (sweep o now l) := by
  have hread : ∀ key, (Quota.sweep o now l).timestamps key = l.timestamps key ∨
      (Quota.sweep o now l).timestamps key = [] ∧
        ∀ t, now ≤ t → SlidingWindow.live (o.windowMs : ℤ) t (l.timestamps key) = [] := by
    intro key
    simp only [InProcess.timestamps, Quota.sweep, OrdMap.get_filter]
    rcases hw : l.windows.get key with _ | window
    · exact .inl rfl
    · by_cases hexpired : window.expired o now
      · refine .inr ⟨by simp [Option.filter, hexpired], fun t ht => ?_⟩
        have hsorted : window.timestamps.Pairwise (· ≤ ·) := by
          simpa [InProcess.timestamps, hw] using h.sorted key
        simpa [InProcess.timestamps, hw] using Window.live_of_expired hsorted hexpired ht
      · exact .inl (by simp [Option.filter, hexpired])
  refine ⟨fun key => ?_, fun key => ?_, fun key t ht => ?_, fun key hmem => h.known key ?_⟩
  · rcases hread key with heq | ⟨heq, -⟩ <;> rw [heq]
    · exact h.sorted key
    · exact List.Pairwise.nil
  · rcases hread key with heq | ⟨heq, -⟩ <;> rw [heq]
    · exact h.past key
    · exact fun _ hx => by cases hx
  · rcases hread key with heq | ⟨heq, hold⟩ <;> rw [heq, ← h.live key t ht]
    rw [hold t ht, live_nil]
  · exact (List.filter_sublist.map Prod.fst).subset hmem

theorem Tracks.openWindow (h : Tracks o keys now history l) {key : String} (hk : key ∈ keys)
    (hroom : keys.length < o.maxIdentities) : Tracks o keys now history (openWindow o key now l) := by
  rw [Quota.openWindow]
  split
  · exact h
  · rename_i hnone
    have hsize : ¬ l.windows.size ≥ o.maxIdentities := by
      have := h.size_le
      omega
    have hempty : l.timestamps key = [] := by rw [InProcess.timestamps, hnone]; rfl
    simp only [hsize, if_false]
    refine h.set hk List.Pairwise.nil (by simp) (fun _ _ => rfl) (fun t ht => ?_) _ _ l.operations
    rw [← h.live key t ht, hempty]

/-- The limiter decides as if it remembered every charge, and remembers the one it makes. -/
theorem evaluate_tracks (h : Tracks o keys now history l) {key : String} (hk : key ∈ keys)
    (hroom : keys.length < o.maxIdentities) (charge : Bool) :
    (evaluate o key charge now l).2 =
      result o (live (o.windowMs : ℤ) now (history key)) charge now ∧
    Tracks o keys now (if charge ∧ (evaluate o key charge now l).2.allowed
      then Function.update history key (history key ++ [now]) else history)
      (evaluate o key charge now l).1 := by
  have hopen := h.openWindow hk hroom
  have hlive : ((openWindow o key now l).timestamps key).dropWhile
      (fun timestamp => now - timestamp ≥ o.windowMs) =
        live (o.windowMs : ℤ) now (history key) := by
    rw [← hopen.live key now le_rfl, ← dropWhile_eq_live (hopen.sorted key)]
  have hyoung : ∀ t, now ≤ t →
      live (o.windowMs : ℤ) t (live (o.windowMs : ℤ) now (history key)) =
        live (o.windowMs : ℤ) t (history key) := fun t ht => live_live ht
  have hsorted : (live (o.windowMs : ℤ) now (history key)).Pairwise (· ≤ ·) := by
    rw [← hopen.live key now le_rfl]
    exact (hopen.sorted key).filter _
  have hpast : ∀ timestamp ∈ live (o.windowMs : ℤ) now (history key), timestamp ≤ now := by
    rw [← hopen.live key now le_rfl]
    exact fun timestamp ht => hopen.past key timestamp (List.mem_filter.mp ht).1
  have hsweep : ∀ {history' : String → List ℤ} {l : InProcess} (due : Prop) [Decidable due],
      Tracks o keys now history' l →
        Tracks o keys now history' (if due then sweep o now l else l) := by
    intro history' l due _ hl
    split
    · exact hl.sweep
    · exact hl
  have hresult : (evaluate o key charge now l).2 =
      result o (live (o.windowMs : ℤ) now (history key)) charge now := by
    simp only [evaluate, hlive]
  refine ⟨hresult, ?_⟩
  rw [hresult]
  simp only [evaluate, hlive]
  refine hsweep _ ?_
  split
  · refine hopen.set hk ?_ ?_ (fun k hne => Function.update_of_ne hne _ _) (fun t ht => ?_) _ _ _
    · refine List.pairwise_append.mpr ⟨hsorted, List.pairwise_singleton _ _, fun a ha b hb => ?_⟩
      rw [List.mem_singleton.mp hb]
      exact hpast a ha
    · intro timestamp ht
      rcases List.mem_append.mp ht with ht | ht
      · exact hpast timestamp ht
      · exact le_of_eq (List.mem_singleton.mp ht)
    · rw [Function.update_self, live_append, live_append, hyoung t ht]
  · exact hopen.set hk hsorted hpast (fun _ _ => rfl) hyoung _ _ _

end Remembra.Quota
