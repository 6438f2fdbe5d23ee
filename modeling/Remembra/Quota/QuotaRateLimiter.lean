import Remembra.Lib.Transition
import Remembra.Quota.Policy

/-! The quota limiter: one in-process limiter for the base budget and one for each dimension with a
    policy. A call of `check`, `consume` or `reset` waits for the call before it to be released, then
    goes from one limiter to the next, with an `await` after each; other calls arrive, and time passes,
    in between.

    A call is known by a name no other call has. Beside what the limiters keep, the model records every
    charge a `consume` makes: for which call, to which key of which limiter, and when. -/

namespace Remembra.Quota.QuotaRateLimiter
open Transition

inductive Op where
  | check | consume | reset
  deriving DecidableEq

/-- Where a call stands. -/
inductive Phase where
  /-- Awaiting `previous`. -/
  | waiting
  /-- The keys still to be checked, and the decisions so far. -/
  | checking (todo : List Target) (decisions : List RateLimitResult)
  /-- The keys still to be charged. -/
  | charging (todo : List Target) (decisions : List RateLimitResult)
  | resetting (todo : List Target)
  /-- Returned and released. -/
  | returned (result : Option RateLimitResult)

structure Call where
  name : ℕ
  op : Op
  identity : RateLimitIdentity
  phase : Phase

structure Charge where
  call : ℕ
  slot : Slot
  key : String
  time : ℤ

/-- The limiters, the clock, the calls in the order of their arrival, and the charges made. -/
structure State where
  windows : Slot → InProcess
  now : ℤ
  calls : List Call
  charges : List Charge

def init (start : ℤ) : State := ⟨fun _ => .empty, start, [], []⟩

variable (q : QuotaOptions)

/-- What follows the last `check`. -/
def decided (op : Op) (identity : RateLimitIdentity) (decisions : List RateLimitResult) : Phase :=
  match decisions.find? fun decision => ¬ decision.allowed with
  | some denial => .returned (some denial)
  | none =>
    if op = .consume then .charging (targets q identity) decisions
    else .returned (report decisions false)

/-- What follows the `await` of `previous`. -/
def begin (op : Op) (identity : RateLimitIdentity) : Phase :=
  match op with
  | .check | .consume => .checking (targets q identity) []
  | .reset => .resetting (baseTarget q identity :: dimensionTargets q identity)

def Call.released (c : Call) : Bool :=
  match c.phase with
  | .returned _ => true
  | _ => false

/-- The call whose promise was `tail` when the call arrived. -/
def previous (name : ℕ) (calls : List Call) : Option Call :=
  (calls.takeWhile fun c => c.name ≠ name).getLast?

def State.put (s : State) (slot : Slot) (l : InProcess) : State :=
  { s with windows := Function.update s.windows slot l }

/-- What a call does between two of its `await`s, but for its own phase. -/
def turn (s : State) (c : Call) : Option (State × Phase) :=
  match c.phase with
  | .waiting =>
    if (previous c.name s.calls).all (·.released) then some (s, begin q c.op c.identity) else none
  | .checking (t :: todo) decisions =>
    let (l, r) := check (q.limiterFor t.policy) t.key s.now (s.windows t.slot)
    some (s.put t.slot l, .checking todo (decisions ++ [{ r with dimension := some t.slot.reported }]))
  | .checking [] decisions => some (s, decided q c.op c.identity decisions)
  | .charging (t :: todo) decisions =>
    let (l, r) := consume (q.limiterFor t.policy) t.key s.now (s.windows t.slot)
    let charges :=
      if r.allowed then s.charges ++ [⟨c.name, t.slot, t.key, s.now⟩] else s.charges
    some ({ s.put t.slot l with charges := charges }, .charging todo decisions)
  | .charging [] decisions => some (s, .returned (report decisions true))
  | .resetting (t :: todo) =>
    some (s.put t.slot (reset t.key (s.windows t.slot)), .resetting todo)
  | .resetting [] => some (s, .returned none)
  | .returned _ => none

def State.setPhase (s : State) (name : ℕ) (phase : Phase) : State :=
  { s with calls := s.calls.map fun c => if c.name = name then { c with phase := phase } else c }

inductive Action where
  /-- A call arrives and takes its place in the chain. -/
  | arrives (name : ℕ) (op : Op) (identity : RateLimitIdentity)
  | goesOn (name : ℕ)
  /-- The clock, which never goes back. -/
  | ticks (ms : ℕ)

def step (s : State) : Action → Option State
  | .arrives name op identity =>
    if name ∈ s.calls.map (·.name) then none
    else some { s with calls := s.calls ++ [⟨name, op, identity, .waiting⟩] }
  | .goesOn name =>
    (s.calls.find? (·.name = name)).bind fun c =>
      (turn q s c).map fun (t, phase) => t.setPhase name phase
  | .ticks ms => some { s with now := s.now + ms }

end Remembra.Quota.QuotaRateLimiter
