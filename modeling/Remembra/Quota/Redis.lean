import Remembra.Lib.Delimited
import Remembra.Lib.SortedSet
import Remembra.Quota.Policy

/-! The quota limiter over a shared store: one sorted set for each key that a request is charged under,
    and one script that decides over all of them and charges them, as one command of the store. Any
    number of instances share the store; an instance is known by its `instanceTag`. -/

namespace Remembra.Quota.Redis
open SortedSet

/-- What the store holds. -/
abbrev Db := String → Option (SortedSet String ℤ)

/-- Run a command on a key. -/
def Db.on (db : Db) (key : String)
    (command : Option (SortedSet String ℤ) → Option (SortedSet String ℤ)) : Db :=
  Function.update db key (command (db key))

theorem Db.on_on (db : Db) (key : String)
    (f g : Option (SortedSet String ℤ) → Option (SortedSet String ℤ)) :
    (db.on key f).on key g = db.on key fun z => g (f z) := by
  simp only [Db.on, Function.update_self, Function.update_idem]

/-- What a script returns. -/
structure Reply where
  allowed : Bool
  index : ℕ
  remaining : ℤ
  retryAfterMs : ℤ

/-- Pass one: prune and decide. The position of the first key that refuses, and its retry. -/
def decide (now : ℤ) : List (String × QuotaPolicy) → ℕ → Db → Db × Option (ℕ × ℤ)
  | [], _, db => (db, none)
  | (key, policy) :: keys, i, db =>
    let db := db.on key (zremrangebyscore now 0 (now - policy.windowMs))
    if zcard now (db key) ≥ policy.limit then
      (db, some (i, (zrangeFirst now (db key)).elim 0 fun oldest =>
        max 0 (oldest + policy.windowMs - now)))
    else decide now keys (i + 1) db

/-- Pass two: charge, then report the tightest budget. -/
def charge (now : ℤ) (member : String) : List (String × QuotaPolicy) → ℕ → ℤ → Db → Db × ℤ
  | [], _, tightestRemaining, db => (db, tightestRemaining)
  | (key, policy) :: keys, i, tightestRemaining, db =>
    let db := db.on key (zadd now now (Delimited.join ':' member (toString i)))
    let db := db.on key (pexpire now policy.windowMs)
    let remaining := policy.limit - (zcard now (db key) : ℤ)
    let tightest := if i = 1 ∨ remaining < tightestRemaining then remaining else tightestRemaining
    charge now member keys (i + 1) tightest db

def quotaScript (now : ℤ) (member : String) (keys : List (String × QuotaPolicy)) (db : Db) :
    Db × Reply :=
  match decide now keys 1 db with
  | (db, some (i, retry)) => (db, ⟨false, i, 0, retry⟩)
  | (db, none) =>
    let (db, tightestRemaining) := charge now member keys 1 (-1) db
    (db, ⟨true, 0, tightestRemaining, 0⟩)

/-- The script that only looks. -/
def quotaCheckScript (now : ℤ) (db : Db) : List (String × QuotaPolicy) → ℕ → ℤ → Reply
  | [], _, tightestRemaining => ⟨true, 0, tightestRemaining, 0⟩
  | (key, policy) :: keys, i, tightestRemaining =>
    let used := zcount now (now - policy.windowMs) (db key)
    if used ≥ policy.limit then ⟨false, i, 0, 0⟩
    else
      let remaining := policy.limit - (used : ℤ)
      let tightest := if i = 1 ∨ remaining < tightestRemaining then remaining else tightestRemaining
      quotaCheckScript now db keys (i + 1) tightest

/-- The store and, of each instance, the sequence of its members. -/
structure State where
  db : Db
  sequence : String → ℕ

def State.empty : State := ⟨fun _ => none, fun _ => 0⟩

structure PlanEntry where
  dimension : RateLimitDimension
  policy : QuotaPolicy
  key : String

variable (q : QuotaOptions) (keyPrefix : String)

def basePlan (identity : RateLimitIdentity) : PlanEntry :=
  ⟨.global, q.base, keyPrefix ++ Delimited.join '=' "base" identity.key⟩

/-- The keys charged for one request, the base last. -/
def plan (identity : RateLimitIdentity) : List PlanEntry :=
  (q.order.filterMap fun (dimension, policy) =>
    (identity.dimensions dimension).map fun value =>
      ⟨dimension, policy, keyPrefix ++ Delimited.join '=' dimension.name value⟩) ++
    [basePlan q keyPrefix identity]

/-- A member unique for each charge. -/
def member (instanceTag : String) (sequence : ℕ) (now : ℤ) : String :=
  Delimited.join ':' (Delimited.join ':' instanceTag (toString sequence)) (toString now)

/-- `evaluate` with the script that charges, or the one that does not. -/
def evaluate (instanceTag : String) (identity : RateLimitIdentity) (charge : Bool) (now : ℤ)
    (s : State) : State × RateLimitResult :=
  let plan := plan q keyPrefix identity
  let sequence := s.sequence instanceTag + 1
  let keys := plan.map fun entry => (entry.key, entry.policy)
  let (db, raw) :=
    if charge then quotaScript now (member instanceTag sequence now) keys s.db
    else (s.db, quotaCheckScript now s.db keys 1 (-1))
  let entry := (plan[raw.index - 1]?).getD (basePlan q keyPrefix identity)
  (⟨db, Function.update s.sequence instanceTag sequence⟩,
    { allowed := raw.allowed
      remaining := if raw.allowed then raw.remaining.toNat else 0
      retryAfterMs := if raw.allowed then 0 else raw.retryAfterMs
      limit := entry.policy.limit
      windowMs := entry.policy.windowMs
      dimension := some entry.dimension })

def check (instanceTag : String) (identity : RateLimitIdentity) (now : ℤ) (s : State) :
    State × RateLimitResult :=
  evaluate q keyPrefix instanceTag identity false now s

def consume (instanceTag : String) (identity : RateLimitIdentity) (now : ℤ) (s : State) :
    State × RateLimitResult :=
  evaluate q keyPrefix instanceTag identity true now s

def reset (identity : RateLimitIdentity) (s : State) : State :=
  { s with db := (plan q keyPrefix identity).foldl (fun db entry => db.on entry.key fun _ => none) s.db }

end Remembra.Quota.Redis
