import Mathlib.Data.List.Nodup
import Remembra.Lib.Transition
import Remembra.Store.Record

/-! The shutdown coordinator. `run()` is a coroutine over the registered phases. The body of a phase is
    called synchronously, and `shutdown()` stores the promise of `run()` only when `run()` awaits for
    the first time, so a body may call `shutdown()` again before there is anything to find. With an
    empty stack the next event is up to the run: a promise of a body settles, a continuation is
    resumed, or anyone calls. A timer may fire at any time.

    A body is known by its place in the order in which bodies are started, a call of `run()` by its
    place in the order of these calls. The clock is a list of readings. -/

namespace Remembra.Shutdown
open Store (JsNum)

inductive PhaseStatus where
  | completed | failed | timeout | skipped
  deriving DecidableEq

structure PhaseResult where
  name : String
  status : PhaseStatus
  durationMs : ℚ
  error : Option String := none
  critical : Bool
  deriving DecidableEq

structure Report where
  reason : String
  durationMs : ℚ
  phases : List PhaseResult
  forced : Bool
  clean : Bool
  deriving DecidableEq

structure Phase where
  name : String
  critical : Bool := false
  deriving DecidableEq

/-- A coordinator with its options; `now` are the readings of its clock. -/
structure Coordinator where
  phases : List Phase
  deadlineMs : Option JsNum
  now : ℕ → ℚ
  named : (phases.map Phase.name).Nodup

/-- `DEFAULT_DEADLINE_MS` -/
def defaultDeadlineMs : JsNum := .finite 10000

def Coordinator.register (c : Coordinator) (phase : Phase) : Except String Coordinator :=
  if h : phase.name ∈ c.phases.map Phase.name then
    .error ("shutdown phase \"" ++ phase.name ++ "\" is already registered")
  else
    .ok { c with
      phases := c.phases ++ [phase]
      named := by
        rw [List.map_append, List.nodup_append]
        refine ⟨c.named, List.nodup_singleton _, ?_⟩
        intro a ha b hb hab
        rw [List.map_singleton, List.mem_singleton] at hb
        exact h (hb ▸ hab ▸ ha) }

/-- Where a call of `run()` stands. -/
inductive Pc where
  /-- In the synchronous part of the body of this phase. -/
  | body (i : ℕ)
  /-- Awaiting the outcome of this phase. -/
  | awaiting (i : ℕ)
  /-- Returned, the `finally` of `shutdown()` still to come. -/
  | returned
  | over
  deriving DecidableEq

/-- The phase that the call is at. -/
def Pc.phase : Pc → Option ℕ
  | .body i | .awaiting i => some i
  | .returned | .over => none

/-- A call of `run()`; `outcome` is what `settle` was first called with for the phase it is at. -/
structure Run where
  reason : String
  deadlineMs : JsNum
  startedAt : ℚ
  results : List PhaseResult
  forced : Bool
  phaseStartedAt : ℚ
  outcome : Option PhaseStatus
  pc : Pc
  deriving DecidableEq

/-- A body that has been started, with the phases whose bodies were running when it was. -/
structure Body where
  phase : ℕ
  run : ℕ
  running : Bool
  during : List ℕ
  deriving DecidableEq

/-- The synchronous part of a body, called by the `run()` of a `shutdown()` that has not returned, or
    by a continuation. -/
structure Frame where
  body : ℕ
  ofShutdown : Bool
  deriving DecidableEq

structure State where
  running : Option ℕ := none
  runs : List Run := []
  bodies : List Body := []
  stack : List Frame := []
  reports : List Report := []
  /-- How often the clock has been read. -/
  reads : ℕ := 0
  deriving DecidableEq

variable (c : Coordinator)

/-- `remaining <= 0` -/
def spent (deadlineMs : JsNum) (elapsed : ℚ) : Bool :=
  match deadlineMs with
  | .finite q => q - elapsed ≤ 0
  | .negInfinity => true
  | .nan | .infinity => false

def Run.push (run : Run) (result : PhaseResult) : Run :=
  { run with
    results := run.results ++ [result]
    forced := run.forced || result.critical && result.status ≠ .completed }

/-- The result of a phase that is not run. -/
def Phase.skip (phase : Phase) : PhaseResult :=
  { name := phase.name, status := .skipped, durationMs := 0, critical := phase.critical }

/-- The result of a phase that has been awaited. -/
def Phase.result (phase : Phase) (outcome : PhaseStatus) (durationMs : ℚ) : PhaseResult where
  name := phase.name
  status := outcome
  durationMs := durationMs
  error := if outcome = .failed then some "phase_failed" else none
  critical := phase.critical

/-- The loop from phase `i` on, up to a phase whose body is to be started, and the number of readings. -/
def Run.loop (now : ℕ → ℚ) (run : Run) (reads i : ℕ) : List Phase → Run × ℕ × Option ℕ
  | [] => (run, reads, none)
  | phase :: rest =>
    if spent run.deadlineMs (now reads - run.startedAt) then
      (run.push phase.skip).loop now (reads + 1) (i + 1) rest
    else (run, reads + 1, some i)

def Run.report (run : Run) (durationMs : ℚ) : Report where
  reason := run.reason
  durationMs := durationMs
  phases := run.results
  forced := run.forced
  clean := !run.forced && run.results.all (·.status = .completed)

/-- The phases whose bodies are running. -/
def State.runningPhases (s : State) : List ℕ := (s.bodies.filter Body.running).map Body.phase

/-- What follows the loop: the report is there, and a `shutdown()` that waits for it stores its promise. -/
def State.ends (s : State) (r : ℕ) (run : Run) (ofShutdown : Bool) (reads : ℕ) : State :=
  { s with
    running := if ofShutdown then some r else s.running
    runs := s.runs.set r { run with pc := .returned }
    reports := s.reports ++ [run.report (c.now reads - run.startedAt)]
    reads := reads + 1 }

/-- The call goes on with phase `i`. -/
def State.goesOn (s : State) (r : ℕ) (run : Run) (ofShutdown : Bool) (i : ℕ) : State :=
  match run.loop c.now s.reads i (c.phases.drop i) with
  | (run, reads, none) => s.ends c r run ofShutdown reads
  | (run, reads, some j) =>
    { s with
      runs := s.runs.set r
        { run with phaseStartedAt := c.now reads, outcome := none, pc := .body j }
      bodies := s.bodies ++ [⟨j, r, true, s.runningPhases⟩]
      stack := ⟨s.bodies.length, ofShutdown⟩ :: s.stack
      reads := reads + 1 }

/-- The new call of `run()`, its clock read once. -/
def State.begun (s : State) (reason : String) (deadlineMs : Option JsNum) : Run where
  reason := reason
  deadlineMs := (deadlineMs.or c.deadlineMs).getD defaultDeadlineMs
  startedAt := c.now s.reads
  results := []
  forced := false
  phaseStartedAt := 0
  outcome := none
  pc := .returned

def shutdown (reason : String) (deadlineMs : Option JsNum) (s : State) : State :=
  match s.running with
  | some _ => s
  | none =>
    let run := s.begun c reason deadlineMs
    ({ s with runs := s.runs ++ [run], reads := s.reads + 1 } : State).goesOn c s.runs.length run true 0

/-- `settle`, for the phase that the call is at. -/
def Run.settle (run : Run) (status : PhaseStatus) : Run :=
  { run with outcome := run.outcome.or (some status) }

/-- How the synchronous part of a body ends. -/
inductive Returns where
  | value
  | promise
  | throws
  deriving DecidableEq

def Returns.status : Returns → Option PhaseStatus
  | .value => some .completed
  | .promise => none
  | .throws => some .failed

def State.bodyReturns (s : State) (how : Returns) : Option State :=
  match s.stack with
  | [] => none
  | frame :: stack =>
    s.bodies[frame.body]?.bind fun body => s.runs[body.run]?.bind fun run =>
      match run.pc with
      | .body i => some { s with
          running := if frame.ofShutdown then some body.run else s.running
          runs := s.runs.set body.run { (how.status.elim run run.settle) with pc := .awaiting i }
          bodies := s.bodies.set frame.body { body with running := how.status.isNone }
          stack := stack }
      | _ => none

/-- The promise of a body settles. If the call has gone on in the meantime, `settle` is one of the past. -/
def State.bodySettles (s : State) (b : ℕ) (fulfilled : Bool) : Option State :=
  s.bodies[b]?.bind fun body => s.runs[body.run]?.bind fun run =>
    if s.stack = [] ∧ body.running then
      some { s with
        runs := if run.pc = .awaiting body.phase then
            s.runs.set body.run (run.settle (if fulfilled then .completed else .failed))
          else s.runs
        bodies := s.bodies.set b { body with running := false } }
    else none

def State.timerFires (s : State) (r : ℕ) : Option State :=
  s.runs[r]?.bind fun run =>
    if run.pc.phase.isSome then some { s with runs := s.runs.set r (run.settle .timeout) } else none

/-- The continuation of the `await` for the outcome of a phase. -/
def State.resumes (s : State) (r : ℕ) : Option State :=
  s.runs[r]?.bind fun run =>
    match run.pc, run.outcome with
    | .awaiting i, some outcome => c.phases[i]?.bind fun phase =>
      if s.stack = [] then
        let run := run.push (phase.result outcome (c.now s.reads - run.phaseStartedAt))
        let s := { s with reads := s.reads + 1 }
        if outcome = .timeout then
          some (s.ends c r (((c.phases.drop (i + 1)).map Phase.skip).foldl Run.push run) false s.reads)
        else some (s.goesOn c r run false (i + 1))
      else none
    | _, _ => none

/-- The `finally` of `shutdown()`. -/
def State.concludes (s : State) (r : ℕ) : Option State :=
  s.runs[r]?.bind fun run =>
    if s.stack = [] ∧ run.pc = .returned then
      some { s with running := none, runs := s.runs.set r { run with pc := .over } }
    else none

inductive Event where
  /-- Anyone calls `shutdown()`: with an empty stack, or the body on top of it. -/
  | call (reason : String) (deadlineMs : Option JsNum)
  /-- The body on top of the stack returns. -/
  | bodyReturns (how : Returns)
  | bodySettles (b : ℕ) (fulfilled : Bool)
  | timerFires (r : ℕ)
  | resumes (r : ℕ)
  | concludes (r : ℕ)
  deriving DecidableEq

def step (s : State) : Event → Option State
  | .call reason deadlineMs => some (shutdown c reason deadlineMs s)
  | .bodyReturns how => s.bodyReturns how
  | .bodySettles b fulfilled => s.bodySettles b fulfilled
  | .timerFires r => s.timerFires r
  | .resumes r => s.resumes c r
  | .concludes r => s.concludes r

end Remembra.Shutdown
