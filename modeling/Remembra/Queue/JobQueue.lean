import Remembra.Lib.Transition

/-! The in-process job queue: a cooperative pool with retries, aborts and a shutdown. The process runs
    one thing at a time, and the model keeps its call stack: calls of `pump()` and `shutdown()` that
    have not returned, and code of the queue's users (a handler up to its first `await`, a callback, a
    listener of an abort), which may call the queue again before it returns. With an empty stack the
    next event is up to the run: a promise of a handler settles, a retry's wait ends, a continuation
    is resumed, or anyone calls the queue.

    A job is known by its place in the order of `enqueue`. -/

namespace Remembra.Queue.JobQueue
open Transition

/-- The options that pass `positiveInteger`. -/
structure Options where
  concurrency : ℕ
  maxQueue : ℕ
  maxAttempts : ℕ
  concurrency_pos : 0 < concurrency
  maxQueue_pos : 0 < maxQueue
  maxAttempts_pos : 0 < maxAttempts

inductive Outcome where
  | completed | failed | cancelled
  deriving DecidableEq

/-- What a job's promise was resolved with, but for the value and the error. -/
structure Result where
  state : Outcome
  attempts : ℕ
  deriving DecidableEq

/-- Where `execute(job)` stands. -/
inductive Phase where
  /-- Not called. -/
  | waiting
  /-- Awaiting the handler of this attempt. -/
  | handling (attempt : ℕ)
  /-- In `waitForRetry` after this attempt. -/
  | retrying (attempt : ℕ)
  /-- Returned, its `finally` still to come. -/
  | returned
  /-- Over, or never to be called. -/
  | done
  deriving DecidableEq

/-- A job, with every result its promise was resolved with. -/
structure Job where
  type : String
  attempts : ℕ
  aborted : Bool
  settled : Bool
  phase : Phase
  results : List Result
  deriving DecidableEq

/-- A call that has not returned. -/
inductive Frame where
  | pump
  | shutdown
  /-- The handler of a job, up to its first `await`. -/
  | handler (i : ℕ)
  /-- A callback, or a listener of an abort signal. -/
  | user
  deriving DecidableEq

inductive Status where
  /-- In `drainWaiters`. -/
  | waiting
  /-- Resolved by `notifyDrain`, the continuation still to come. -/
  | released
  /-- The promise of `drain()` is resolved. -/
  | drained
  /-- The promise of the `shutdown()` that called `drain()` is resolved. -/
  | shutDown
  deriving DecidableEq

/-- A call of `drain()`, by a user or by `shutdown()`. -/
structure Waiter where
  ofShutdown : Bool
  status : Status
  deriving DecidableEq

/-- A call of a handler: for which job, which attempt, and whether the queue was closed. -/
structure Call where
  job : ℕ
  attempt : ℕ
  closed : Bool
  deriving DecidableEq

inductive QueueError where
  | closed
  | alreadyRegistered (type : String)
  | noHandler (type : String)
  | full (maxQueue : ℕ)
  deriving DecidableEq

/-- The queue. `cancelling` and `toAbort` are what is left of the two loops of `shutdown()`; `starts`
    are the jobs in the order they were taken from the queue, `calls` the calls of handlers. -/
structure State where
  handlers : List String
  jobs : List Job
  queue : List ℕ
  running : List ℕ
  waiters : List Waiter
  closed : Bool
  stack : List Frame
  cancelling : List ℕ
  toAbort : List ℕ
  starts : List ℕ
  calls : List Call
  deriving DecidableEq

def init : State := ⟨[], [], [], [], [], false, [], [], [], [], []⟩

variable (o : Options)

def Job.settle (state : Outcome) (attempts : ℕ) (job : Job) : Job :=
  if job.settled then job
  else { job with
    settled := true, attempts := attempts, results := job.results ++ [⟨state, attempts⟩] }

/-- The callbacks `settle` calls: `onSettled`, and `onError` when the job failed. -/
def Job.callbacks (state : Outcome) (job : Job) : List Frame :=
  if job.settled then [] else if state = .failed then [.user, .user] else [.user]

/-- `execute` settles the job and returns. -/
def finish (i : ℕ) (job : Job) (state : Outcome) (attempts : ℕ) (s : State) : State :=
  { s with
    jobs := s.jobs.modify i fun job => { job.settle state attempts with phase := .returned }
    stack := job.callbacks state ++ s.stack }

/-- An iteration of the loop of `execute`, up to the handler's first `await`. -/
def beginAttempt (i : ℕ) (job : Job) (attempt : ℕ) (s : State) : State :=
  if attempt ≤ o.maxAttempts then
    let s := { s with jobs := s.jobs.modify i fun job => { job with attempts := attempt } }
    if job.aborted then finish i job .cancelled attempt s
    else { s with
      jobs := s.jobs.modify i fun job => { job with phase := .handling attempt }
      stack := .handler i :: s.stack
      calls := s.calls ++ [⟨i, attempt, s.closed⟩] }
  else { s with jobs := s.jobs.modify i fun job => { job with phase := .returned } }

/-- The handler's promise is fulfilled. -/
def fulfilled (i : ℕ) (job : Job) (attempt : ℕ) (s : State) : State :=
  finish i job (if job.aborted then .cancelled else .completed) attempt s

/-- The handler's promise is rejected, or the handler throws. -/
def rejected (i : ℕ) (job : Job) (attempt : ℕ) (s : State) : State :=
  if job.aborted then finish i job .cancelled attempt s
  else if attempt ≥ o.maxAttempts then finish i job .failed attempt s
  else { s with jobs := s.jobs.modify i fun job => { job with phase := .retrying attempt } }

/-- What follows `waitForRetry`. -/
def retried (i : ℕ) (job : Job) (attempt : ℕ) (s : State) : State :=
  if job.aborted then finish i job .cancelled attempt s else beginAttempt o i job (attempt + 1) s

def notifyDrain (s : State) : State :=
  if s.queue ≠ [] ∨ s.running ≠ [] then s
  else { s with waiters := s.waiters.map fun w =>
    if w.status = .waiting then { w with status := .released } else w }

def drain (ofShutdown : Bool) (s : State) : State :=
  let status := if s.queue = [] ∧ s.running = [] then Status.drained else .waiting
  { s with waiters := s.waiters ++ [⟨ofShutdown, status⟩] }

def register (type : String) (s : State) : Except QueueError State :=
  if s.closed then .error .closed
  else if type ∈ s.handlers then .error (.alreadyRegistered type)
  else .ok { s with handlers := s.handlers ++ [type] }

/-- `enqueue` up to its call of `pump()`. -/
def enqueue (type : String) (s : State) : Except QueueError State :=
  if s.closed then .error .closed
  else if type ∉ s.handlers then .error (.noHandler type)
  else if s.queue.length ≥ o.maxQueue then .error (.full o.maxQueue)
  else .ok { s with
    jobs := s.jobs ++ [⟨type, 0, false, false, .waiting, []⟩]
    queue := s.queue ++ [s.jobs.length]
    stack := .pump :: s.stack }

/-- `shutdown()` up to its first loop. No job enters or leaves `running` while it loops. -/
def shutdown (s : State) : State :=
  if s.closed then drain true s
  else { s with
    closed := true, cancelling := s.queue, queue := [], toAbort := s.running,
    stack := .shutdown :: s.stack }

/-- The head of the loop of `pump()`. -/
def pump (s : State) : State :=
  match s.queue with
  | i :: queue =>
    if s.closed = false ∧ s.running.length < o.concurrency then
      let s := { s with queue := queue, running := s.running ++ [i], starts := s.starts ++ [i] }
      match s.jobs[i]? with
      | some job => beginAttempt o i job 1 s
      | none => s
    else notifyDrain { s with stack := s.stack.tail }
  | [] => notifyDrain { s with stack := s.stack.tail }

/-- The body of the first loop of `shutdown()`: a job that has not been started is cancelled. -/
def cancelQueued (i : ℕ) (cancelling : List ℕ) (s : State) : State :=
  { s with
    cancelling := cancelling
    jobs := s.jobs.modify i fun job =>
      { ({ job with aborted := true } : Job).settle .cancelled job.attempts with phase := .done }
    stack := ((s.jobs[i]?).elim [] (·.callbacks .cancelled)) ++ s.stack }

/-- The body of the second loop: a running job is aborted. -/
def abortRunning (i : ℕ) (toAbort : List ℕ) (s : State) : State :=
  { s with
    toAbort := toAbort
    jobs := s.jobs.modify i fun job => { job with aborted := true }
    stack := .user :: s.stack }

/-- The next step of the loops of `shutdown()`. -/
def shutdownLoop (s : State) : State :=
  match s.cancelling, s.toAbort with
  | i :: cancelling, _ => cancelQueued i cancelling s
  | [], i :: toAbort => abortRunning i toAbort s
  | [], [] => drain true { s with stack := s.stack.tail }

/-- The `finally` of `execute(job)`. -/
def settles (i : ℕ) (s : State) : State :=
  let s := notifyDrain { s with
    running := s.running.erase i
    jobs := s.jobs.modify i fun job => { job with phase := .done } }
  if s.closed then s else { s with stack := .pump :: s.stack }

/-- The continuation of `drain()`, or of the `shutdown()` that awaits it. -/
def resume (w : Waiter) : Option Waiter :=
  match w.status, w.ofShutdown with
  | .released, _ => some { w with status := .drained }
  | .drained, true => some { w with status := .shutDown }
  | _, _ => none

inductive Action where
  | register (type : String)
  | enqueue (type : String)
  | drain
  | shutdown
  /-- The call on top of the stack goes on: a loop of the queue, or user code that returns. -/
  | goesOn
  /-- The handler on top of the stack throws before its first `await`. -/
  | throws
  | handlerSettles (i : ℕ) (ok : Bool)
  | retries (i : ℕ)
  | finally (i : ℕ)
  | resumes (k : ℕ)

/-- Code of the queue's users may run: nothing is executing, or their code is on top of the stack. -/
def MayCall (s : State) : Prop :=
  match s.stack with
  | [] | .user :: _ | .handler _ :: _ => True
  | _ => False

instance (s : State) : Decidable (MayCall s) := by
  unfold MayCall
  split <;> infer_instance

/-- A call that throws leaves the queue as it is. -/
def orSame (s : State) : Except QueueError State → State
  | .ok t => t
  | .error _ => s

/-- The attempt a job is in, when it awaits its handler. -/
def Job.attempt? (job : Job) : Option ℕ :=
  match job.phase with
  | .handling attempt => some attempt
  | _ => none

def step (s : State) : Action → Option State
  | .register type => if MayCall s then some (orSame s (register type s)) else none
  | .enqueue type => if MayCall s then some (orSame s (enqueue o type s)) else none
  | .drain => if MayCall s then some (drain false s) else none
  | .shutdown => if MayCall s then some (shutdown s) else none
  | .goesOn =>
    match s.stack with
    | [] => none
    | .pump :: _ => some (pump o s)
    | .shutdown :: _ => some (shutdownLoop s)
    | .handler _ :: stack | .user :: stack => some { s with stack := stack }
  | .throws =>
    match s.stack with
    | .handler i :: stack =>
      (s.jobs[i]?).bind fun job => job.attempt?.map fun attempt =>
        rejected o i job attempt { s with stack := stack }
    | _ => none
  | .handlerSettles i ok =>
    if s.stack = [] then
      (s.jobs[i]?).bind fun job => job.attempt?.map fun attempt =>
        if ok then fulfilled i job attempt s else rejected o i job attempt s
    else none
  | .retries i =>
    if s.stack = [] then
      (s.jobs[i]?).bind fun job =>
        match job.phase with
        | .retrying attempt => some (retried o i job attempt s)
        | _ => none
    else none
  | .finally i =>
    if s.stack = [] ∧ (s.jobs[i]?).any (·.phase = .returned) then some (settles i s) else none
  | .resumes k =>
    if s.stack = [] then
      (s.waiters[k]?).bind fun w => (resume w).map fun w => { s with waiters := s.waiters.set k w }
    else none

end Remembra.Queue.JobQueue
