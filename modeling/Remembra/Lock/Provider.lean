import Mathlib.Data.Int.Notation
import Mathlib.Tactic.Common

/-! What both lock providers share: the options of `acquire`, the public shape of a lease and the
    refusal. Clock readings and durations are integers (milliseconds), keys and owners strings. -/

namespace Remembra.Lock

def defaultLeaseMs : ℤ := 30000
def defaultWaitMs : ℤ := 0
def defaultPollMs : ℤ := 25
/-- Reclaim-and-retry attempts before `acquire` refuses instead of spinning. -/
def maxAcquireSpins : ℕ := 64

structure LockOptions where
  leaseMs : Option ℤ := none
  waitMs : Option ℤ := none
  pollMs : Option ℤ := none
  owner : Option String := none

structure LockInfo where
  key : String
  owner : String
  expiresAt : ℤ
  deriving DecidableEq

/-- The error of a refused `acquire` (`code: "LOCK_TIMEOUT"`), with the holder it names if any. -/
structure LockTimeout where
  message : String
  holder : Option String := none
  deriving DecidableEq

def LockTimeout.heldBy (key holder : String) : LockTimeout :=
  ⟨"lock \"" ++ key ++ "\" is held by " ++ holder, some holder⟩

def LockTimeout.contention (key : String) : LockTimeout :=
  ⟨"lock \"" ++ key ++ "\" could not be acquired: too much contention", none⟩

/-- How long `acquire` sleeps between two polls of a contended lease. -/
def sleepMs (pollMs deadline now : ℤ) : ℤ := min pollMs (max 1 (deadline - now))

/-- The locals of a call of `acquire`, fixed when it is made at clock reading `now`. -/
structure AcquireCall where
  key : String
  owner : String
  leaseMs : ℤ
  pollMs : ℤ
  deadline : ℤ
  deriving DecidableEq

/-- `self` is `defaultLockOwner()`, one value for every caller in a process. -/
def AcquireCall.start (self : String) (now : ℤ) (key : String) (options : LockOptions) :
    AcquireCall where
  key := key
  owner := options.owner.getD self
  leaseMs := options.leaseMs.getD defaultLeaseMs
  pollMs := options.pollMs.getD defaultPollMs
  deadline := now + options.waitMs.getD defaultWaitMs

end Remembra.Lock
