import Mathlib.Data.Finset.Card
import Remembra.Lib.Transition

/-! The claim loop of a durable worker. `pump()` is a coroutine: it runs until it awaits the claim
    or the poll timer, and no other code of the process runs in between, except the synchronous
    part of the handler of a job it has just claimed. What the store answers, when timers fire,
    when handlers settle and when anyone calls `start` and `stop` is up to the run. -/

namespace Remembra.Worker.Pump
open Transition

/-- The options the loop reads: the job types with a handler, and the concurrency asked for. -/
structure Options where
  types : List String
  concurrency : Option ℤ

def defaultConcurrency : ℤ := 2

/-- `Math.max(1, options.concurrency ?? DEFAULT_CONCURRENCY)` -/
def Options.limit (o : Options) : ℤ := max 1 (o.concurrency.getD defaultConcurrency)

inductive PollTimer where
  | unset | armed | fired
  deriving DecidableEq

/-- Where the loop stands. -/
inductive Pc where
  /-- No call of `pump()` is under way. -/
  | idle
  /-- At the head of the outer loop. -/
  | loop
  /-- Awaiting a claim. -/
  | claiming (progressed : Bool)
  /-- In the synchronous part of the handler of the job just claimed. -/
  | handling
  /-- Awaiting the poll timer. -/
  | waiting
  deriving DecidableEq

/-- A worker. `runs` are the jobs whose `run()` has not reached its `finally` yet, `stopCalls` counts
    the calls of `stop()` that have not returned, and `spun` records that the last iteration of the
    outer loop came back to its head without suspending. -/
structure State where
  running : Bool
  pumping : Bool
  pollTimer : PollTimer
  inFlight : Finset String
  runs : List String
  stopCalls : ℕ
  pc : Pc
  spun : Bool
  deriving DecidableEq

def init : State := ⟨false, false, .unset, ∅, [], 0, .idle, false⟩

variable (o : Options)

/-- A slot is free: `inFlight.size < concurrency`. -/
def Free (s : State) : Prop := (s.inFlight.card : ℤ) < o.limit

instance (s : State) : Decidable (Free o s) := inferInstanceAs (Decidable (_ < _))

def pump (s : State) : State :=
  if s.pumping then s else { s with pumping := true, pc := .loop }

/-- Without job types to run, `start` throws. -/
def start (s : State) : State :=
  if s.running then s
  else if o.types = [] then s
  else pump { s with running := true }

/-- The part of `stop` before its first `await`. -/
def stop (s : State) : State :=
  { s with running := false, pollTimer := .unset, stopCalls := s.stopCalls + 1 }

/-- The outer loop after the inner one. -/
def afterFill (progressed : Bool) (s : State) : State :=
  -- saturated: the completion will pump again
  let progressed := progressed || (s.running && !decide (Free o s))
  if progressed then { s with pc := .loop } else { s with pc := .waiting, pollTimer := .armed }

/-- The head of the inner loop. -/
def fill (progressed : Bool) (s : State) : State :=
  if s.running = true ∧ Free o s then { s with pc := .claiming progressed }
  else afterFill o progressed s

/-- The code that runs without anything else getting a turn: one iteration of the outer loop up to
    its first suspension, or what follows the synchronous part of a handler. -/
def goesOn (s : State) : Option State :=
  match s.pc with
  | .loop =>
    if s.running then
      let t := fill o false s
      some { t with spun := decide (t.pc = .loop) }
    else some { s with pc := .idle, pumping := false }
  | .handling => some (fill o true s)
  | _ => none

/-- The `finally` of `run()`: the job leaves `inFlight` and a running worker pumps. -/
def settle (jobId : String) (s : State) : State :=
  let s := { s with inFlight := s.inFlight.erase jobId, runs := s.runs.erase jobId }
  if s.running then pump s else s

def register (jobId : String) (s : State) : State :=
  { s with inFlight := insert jobId s.inFlight, runs := jobId :: s.runs }

inductive Action where
  | start
  | stop
  /-- `stop` has run out of time and takes a job out of `inFlight`. -/
  | givesUp (jobId : String)
  | stopReturns
  /-- The store answers the claim, with the id and the type of a job or with nothing. -/
  | claimed (job : Option (String × String))
  | timerFires
  | settles (jobId : String)
  /-- `drain()` has claimed this job and runs it. -/
  | drains (jobId : String)
  | goesOn

/-- No synchronous code is executing. -/
def Quiet (s : State) : Prop := s.pc ≠ .loop ∧ s.pc ≠ .handling

instance (s : State) : Decidable (Quiet s) := inferInstanceAs (Decidable (_ ∧ _))

def step (s : State) : Action → Option State
  | .start => if s.pc = .loop then none else some (Pump.start o s)
  | .stop => if s.pc = .loop then none else some (Pump.stop s)
  | .givesUp jobId =>
    if Quiet s ∧ 0 < s.stopCalls then some { s with inFlight := s.inFlight.erase jobId } else none
  | .stopReturns =>
    if Quiet s ∧ 0 < s.stopCalls then some { s with stopCalls := s.stopCalls - 1 } else none
  | .claimed job =>
    match s.pc, job with
    | .claiming progressed, none => some (afterFill o progressed s)
    | .claiming _, some (jobId, type) =>
      if type ∈ o.types then some { register jobId s with pc := .handling }
      -- no handler: `run` awaits the store and the loop goes on
      else some (fill o true s)
    | _, _ => none
  | .timerFires =>
    if s.pc = .waiting ∧ s.pollTimer = .armed then some { s with pollTimer := .fired, pc := .loop }
    else none
  | .settles jobId => if Quiet s ∧ jobId ∈ s.runs then some (settle jobId s) else none
  | .drains jobId => if Quiet s then some (register jobId s) else none
  | .goesOn => Pump.goesOn o s

variable {o}

theorem afterFill_saturated {s : State} {progressed : Bool} (hrun : s.running = true)
    (hfull : ¬ Free o s) : afterFill o progressed s = { s with pc := .loop } := by
  simp [afterFill, hrun, hfull]

theorem fill_saturated {s : State} {progressed : Bool} (hrun : s.running = true)
    (hfull : ¬ Free o s) : fill o progressed s = { s with pc := .loop } := by
  rw [fill, if_neg fun h => hfull h.2, afterFill_saturated hrun hfull]

theorem fill_free {s : State} {progressed : Bool} (hrun : s.running = true) (hfree : Free o s) :
    fill o progressed s = { s with pc := .claiming progressed } := if_pos ⟨hrun, hfree⟩

/-- Everything a step can be. -/
inductive Steps (o : Options) (s : State) : Action → State → Prop
  | starts (hpc : s.pc ≠ .loop) : Steps o s .start (Pump.start o s)
  | stops (hpc : s.pc ≠ .loop) : Steps o s .stop (Pump.stop s)
  | givesUp {jobId : String} (hq : Quiet s) :
      Steps o s (.givesUp jobId) { s with inFlight := s.inFlight.erase jobId }
  | stopReturns (hq : Quiet s) : Steps o s .stopReturns { s with stopCalls := s.stopCalls - 1 }
  | claimsNone {progressed : Bool} (hpc : s.pc = .claiming progressed) :
      Steps o s (.claimed none) (afterFill o progressed s)
  | claimsJob {progressed : Bool} {jobId type : String} (hpc : s.pc = .claiming progressed)
      (htype : type ∈ o.types) :
      Steps o s (.claimed (some (jobId, type))) { register jobId s with pc := .handling }
  | claimsUnknown {progressed : Bool} {jobId type : String} (hpc : s.pc = .claiming progressed)
      (htype : type ∉ o.types) : Steps o s (.claimed (some (jobId, type))) (fill o true s)
  | fires (hpc : s.pc = .waiting) (htimer : s.pollTimer = .armed) :
      Steps o s .timerFires { s with pollTimer := .fired, pc := .loop }
  | settles {jobId : String} (hq : Quiet s) : Steps o s (.settles jobId) (settle jobId s)
  | drains {jobId : String} (hq : Quiet s) : Steps o s (.drains jobId) (register jobId s)
  | iterates (hpc : s.pc = .loop) (hrun : s.running = true) :
      Steps o s .goesOn { fill o false s with spun := decide ((fill o false s).pc = .loop) }
  | stops_looping (hpc : s.pc = .loop) (hrun : s.running = false) :
      Steps o s .goesOn { s with pc := .idle, pumping := false }
  | handled (hpc : s.pc = .handling) : Steps o s .goesOn (fill o true s)

theorem step_cases {s t : State} {a : Action} (h : step o s a = some t) : Steps o s a t := by
  cases a with
  | start =>
    simp only [step, Option.ite_none_left_eq_some, Option.some.injEq] at h
    exact h.2 ▸ .starts h.1
  | stop =>
    simp only [step, Option.ite_none_left_eq_some, Option.some.injEq] at h
    exact h.2 ▸ .stops h.1
  | givesUp jobId =>
    simp only [step, Option.ite_none_right_eq_some, Option.some.injEq] at h
    exact h.2 ▸ .givesUp h.1.1
  | stopReturns =>
    simp only [step, Option.ite_none_right_eq_some, Option.some.injEq] at h
    exact h.2 ▸ .stopReturns h.1.1
  | claimed job =>
    rcases hpc : s.pc with _ | _ | progressed | _ | _ <;> rcases job with _ | ⟨jobId, type⟩ <;>
      simp only [step, hpc, reduceCtorEq] at h
    · cases h
      exact .claimsNone hpc
    · split at h <;> cases h
      · exact .claimsJob hpc (by assumption)
      · exact .claimsUnknown hpc (by assumption)
  | timerFires =>
    simp only [step, Option.ite_none_right_eq_some, Option.some.injEq] at h
    exact h.2 ▸ .fires h.1.1 h.1.2
  | settles jobId =>
    simp only [step, Option.ite_none_right_eq_some, Option.some.injEq] at h
    exact h.2 ▸ .settles h.1.1
  | drains jobId =>
    simp only [step, Option.ite_none_right_eq_some, Option.some.injEq] at h
    exact h.2 ▸ .drains h.1
  | goesOn =>
    rcases hpc : s.pc with _ | _ | progressed | _ | _ <;>
      simp only [step, goesOn, hpc, reduceCtorEq] at h
    · split at h <;> cases h
      · exact .iterates hpc (by assumption)
      · exact .stops_looping hpc (by simpa using ‹¬ s.running = true›)
    · cases h
      exact .handled hpc

/-! ### Every iteration suspends -/

/-- An iteration of a running worker's loop begins with a free slot. -/
def BeginsFree (o : Options) (s : State) : Action → Prop
  | .goesOn => s.pc = .loop → s.running = true → Free o s
  | _ => True

/-- The last iteration did not come back to the head of the loop without suspending. -/
def Suspends (s : State) : Prop := s.spun = false

@[simp] theorem pump_spun (s : State) : (pump s).spun = s.spun := by
  unfold pump
  split <;> rfl

@[simp] theorem start_spun (s : State) : (start o s).spun = s.spun := by
  unfold start
  split
  · rfl
  · split
    · rfl
    · exact pump_spun _

@[simp] theorem afterFill_spun (progressed : Bool) (s : State) :
    (afterFill o progressed s).spun = s.spun := by
  simp only [afterFill]
  split <;> rfl

@[simp] theorem fill_spun (progressed : Bool) (s : State) :
    (fill o progressed s).spun = s.spun := by
  unfold fill
  split
  · rfl
  · exact afterFill_spun progressed s

@[simp] theorem settle_spun (jobId : String) (s : State) : (settle jobId s).spun = s.spun := by
  simp only [settle]
  split
  · exact pump_spun _
  · rfl

/-- Only an iteration of the outer loop records whether it suspended. -/
theorem step_spun {s t : State} {a : Action} (h : step o s a = some t) :
    t.spun = s.spun ∨ a = .goesOn ∧ s.pc = .loop ∧ s.running = true ∧
      t.spun = decide ((fill o false s).pc = .loop) := by
  cases step_cases h with
  | iterates hpc hrun => exact .inr ⟨rfl, hpc, hrun, rfl⟩
  | _ => left; simp [stop, register]

theorem suspends_step {s t : State} {a : Action} (hs : Suspends s) (hok : BeginsFree o s a)
    (h : step o s a = some t) : Suspends t := by
  rcases step_spun h with hsame | ⟨rfl, hpc, hrun, hspun⟩
  · exact hsame.trans hs
  · rw [Suspends, hspun, fill_free hrun (hok hpc hrun)]
    rfl

/-- A saturated worker comes back to the head of the loop at once: there is nothing it awaits. -/
theorem not_suspends_of_saturated {s t : State} {a : Action} (hok : ¬ BeginsFree o s a)
    (h : step o s a = some t) : ¬ Suspends t := by
  cases step_cases h with
  | iterates hpc hrun =>
    have hfull : ¬ Free o s := fun hfree => hok fun _ _ => hfree
    simp [Suspends, fill_saturated hrun hfull]
  | stops_looping hpc hrun =>
    exact absurd (fun _ hr => by rw [hrun] at hr; cases hr) hok
  | handled hpc => exact absurd (fun hl => by rw [hpc] at hl; cases hl) hok
  | _ => exact absurd trivial hok

/-- The loop never runs away without yielding exactly in the runs in which no iteration of a running
    worker begins with as many jobs in flight as the worker may run. -/
theorem pump_yields_iff (o : Options) (as : List Action) :
    Everywhere (step o) Suspends init as ↔ Along (step o) (BeginsFree o) init as :=
  everywhere_iff_along (fun _ _ _ hs hok h => suspends_step hs hok h) (fun _ hs => hs)
    (fun _ _ _ _ hok h => not_suspends_of_saturated hok h) (show Suspends init from rfl) as

/-- A worker that may run one job and runs it. -/
def oneJob : Options := ⟨["t"], some 1⟩

/-- Once the one slot is taken the loop spins. -/
theorem one_running_job_spins : ¬ Everywhere (step oneJob) Suspends init
    [.start, .goesOn, .claimed (some ("j", "t")), .goesOn, .goesOn] := by
  intro h
  have hspun : (run (step oneJob) init
      [.start, .goesOn, .claimed (some ("j", "t")), .goesOn, .goesOn]).any (·.spun) = true := by
    decide
  obtain ⟨s, hs, hspun⟩ := (Option.any_eq_true _ _).mp hspun
  have := h.of_run hs
  rw [Suspends, hspun] at this
  cases this

/-- Nothing else ever gets a turn: the handlers in flight never settle. -/
theorem saturated_spins {s t : State} (hpc : s.pc = .loop) (hrun : s.running = true)
    (hfull : ¬ Free o s) (h : Reachable (step o) s t) :
    t.pc = .loop ∧ t.running = true ∧ t.inFlight = s.inFlight ∧ t.runs = s.runs := by
  refine reachable_induct (I := fun t => t.pc = .loop ∧ t.running = true ∧
    t.inFlight = s.inFlight ∧ t.runs = s.runs) ?_ ⟨hpc, hrun, rfl, rfl⟩ h
  rintro u a v ⟨hupc, hurun, hin, hruns⟩ hv
  have hufull : ¬ Free o u := by rwa [Free, hin]
  cases step_cases hv with
  | iterates _ _ =>
    rw [fill_saturated hurun hufull]
    exact ⟨rfl, hurun, hin, hruns⟩
  | stops_looping _ hr => rw [hurun] at hr; cases hr
  | handled hl | claimsNone hl | claimsJob hl | claimsUnknown hl | fires hl =>
    rw [hupc] at hl
    cases hl
  | starts hl | stops hl => exact absurd hupc hl
  | givesUp hq | stopReturns hq | settles hq | drains hq => exact absurd hupc hq.1

theorem saturated_spins_oneJob : ∃ t, Transition.run (step oneJob)
      ⟨true, true, .unset, {"j"}, ["j"], 0, .loop, false⟩ [.goesOn, .goesOn] = some t ∧
    t.pc = .loop ∧ t.running = true ∧ t.inFlight = {"j"} ∧ t.runs = ["j"] := by
  have hfull : ¬ Free oneJob ⟨true, true, .unset, {"j"}, ["j"], 0, .loop, false⟩ := by decide
  exact ⟨_, rfl, saturated_spins rfl rfl hfull ⟨[.goesOn, .goesOn], rfl⟩⟩

/-! ### Something will make a running worker poll again -/

/-- A claim is outstanding, or the loop awaits a timer that is armed, or a job is in flight whose
    settlement will find no pump running and start one. -/
def Polls (s : State) : Prop :=
  (∃ progressed, s.pc = .claiming progressed) ∨ (s.pc = .waiting ∧ s.pollTimer = .armed) ∨
    (s.runs ≠ [] ∧ s.pumping = false)

/-- The code that runs without anything else getting a turn, if there is any. -/
def resume (o : Options) (s : State) : State := (goesOn o s).getD s

/-- A running worker polls again once the synchronous code has run, or the handler it has just
    called is still in its synchronous part. -/
def Live (o : Options) (s : State) : Prop :=
  s.running = true → s.pc = .handling ∨ ∃ n, Polls ((resume o)^[n] s)

/-- What the loop of a running worker needs when it gets its turn again. -/
def ResumesFree (o : Options) (s : State) : Action → Prop
  | .start => s.running = false → o.types ≠ [] →
      (s.pc = .idle → Free o s) ∧ (s.pc = .waiting → s.pollTimer = .armed)
  | .claimed none | .timerFires => s.running = true → Free o s
  | .claimed (some (_, type)) => type ∉ o.types → s.running = true → Free o s
  | .goesOn => s.pc = .handling → s.running = true → Free o s
  | _ => True

/-- The flag guards the loop: it is set while the loop is anywhere, and a loop that has ended has
    seen the worker stopped. -/
structure Inv (s : State) : Prop where
  pumping : s.pumping = false ↔ s.pc = .idle
  idle : s.pc = .idle → s.running = false

theorem resume_quiet {s : State} (hq : Quiet s) : resume o s = s := by
  rw [resume, goesOn]
  rcases hpc : s.pc with _ | _ | _ | _ | _
  · rfl
  · exact absurd hpc hq.1
  · rfl
  · exact absurd hpc hq.2
  · rfl

theorem live_of_polls {s : State} (h : Polls s) : Live o s := fun _ => .inr ⟨0, h⟩

/-- Where no synchronous code is executing, a live worker is one that polls. -/
theorem polls_of_live {s : State} (hq : Quiet s) (hrun : s.running = true) (h : Live o s) :
    Polls s := by
  rcases h hrun with hpc | ⟨n, hn⟩
  · exact absurd hpc hq.2
  · rwa [Function.iterate_fixed (resume_quiet hq)] at hn

theorem live_of_free {s : State} (hpc : s.pc = .loop) (hfree : Free o s) : Live o s := by
  refine fun hrun => .inr ⟨1, .inl ⟨false, ?_⟩⟩
  rw [Function.iterate_one, resume, goesOn, hpc]
  simp only [hrun, if_true, Option.getD_some]
  rw [fill_free hrun hfree]

/-- A worker that spins never polls. -/
theorem not_live_of_saturated {s : State} (hpc : s.pc = .loop) (hrun : s.running = true)
    (hpump : s.pumping = true) (hfull : ¬ Free o s) : ¬ Live o s := by
  intro h
  have hstays : ∀ n, ((resume o)^[n] s).pc = .loop ∧ ((resume o)^[n] s).running = true ∧
      ((resume o)^[n] s).pumping = true ∧ ((resume o)^[n] s).inFlight = s.inFlight := by
    intro n
    induction n with
    | zero => exact ⟨hpc, hrun, hpump, rfl⟩
    | succ n ih =>
      obtain ⟨hl, hr, hp, hin⟩ := ih
      rw [Function.iterate_succ_apply', resume, goesOn, hl]
      have hnot : ¬ Free o ((resume o)^[n] s) := by rwa [Free, hin]
      simp only [hr, if_true, Option.getD_some]
      rw [fill_saturated hr hnot]
      exact ⟨rfl, hr, hp, hin⟩
  rcases h hrun with hl | ⟨n, hn⟩
  · rw [hpc] at hl
    cases hl
  · obtain ⟨hl, -, hp, -⟩ := hstays n
    rcases hn with ⟨_, hc⟩ | ⟨hw, -⟩ | ⟨-, hnp⟩
    · rw [hl] at hc
      cases hc
    · rw [hl] at hw
      cases hw
    · rw [hp] at hnp
      cases hnp

theorem Inv.pumping_of_ne {s : State} (hs : Inv s) (hpc : s.pc ≠ .idle) : s.pumping = true := by
  cases hp : s.pumping with
  | true => rfl
  | false => exact absurd (hs.pumping.mp hp) hpc

theorem Inv.of_pumping {s : State} (hp : s.pumping = true) (hpc : s.pc ≠ .idle) : Inv s where
  pumping := by simp [hp, hpc]
  idle h := absurd h hpc

theorem afterFill_pumping (progressed : Bool) (s : State) :
    (afterFill o progressed s).pumping = s.pumping := by
  simp only [afterFill]
  split <;> rfl

theorem fill_pumping (progressed : Bool) (s : State) :
    (fill o progressed s).pumping = s.pumping := by
  unfold fill
  split
  · rfl
  · exact afterFill_pumping progressed s

theorem afterFill_running (progressed : Bool) (s : State) :
    (afterFill o progressed s).running = s.running := by
  simp only [afterFill]
  split <;> rfl

theorem fill_running (progressed : Bool) (s : State) :
    (fill o progressed s).running = s.running := by
  unfold fill
  split
  · rfl
  · exact afterFill_running progressed s

theorem afterFill_pc_ne (progressed : Bool) (s : State) : (afterFill o progressed s).pc ≠ .idle := by
  simp only [afterFill]
  split <;> simp

theorem fill_pc_ne (progressed : Bool) (s : State) : (fill o progressed s).pc ≠ .idle := by
  unfold fill
  split
  · simp
  · exact afterFill_pc_ne progressed s

/-- `start()` of a stopped worker: the loop begins anew, or the call only sets the flag. -/
theorem start_cases {s : State} (hs : Inv s) :
    (s.running = true ∨ o.types = []) ∧ start o s = s ∨ s.running = false ∧ o.types ≠ [] ∧
      (s.pc = .idle ∧ start o s = { s with running := true, pumping := true, pc := .loop } ∨
        s.pc ≠ .idle ∧ s.pumping = true ∧ start o s = { s with running := true }) := by
  rw [start]
  cases hrun : s.running with
  | true => exact .inl ⟨.inl rfl, rfl⟩
  | false =>
    rw [if_neg (by simp)]
    split
    · exact .inl ⟨.inr (by assumption), rfl⟩
    · rename_i htypes
      refine .inr ⟨rfl, htypes, ?_⟩
      rcases eq_or_ne s.pc .idle with hidle | hne
      · exact .inl ⟨hidle, by simp [pump, hs.pumping.mpr hidle]⟩
      · have hp := hs.pumping_of_ne hne
        exact .inr ⟨hne, hp, by simp [pump, hp]⟩

theorem inv_step {s t : State} {a : Action} (hs : Inv s) (h : Steps o s a t) : Inv t := by
  cases h with
  | starts _ =>
    rcases start_cases (o := o) hs with ⟨-, hsame⟩ | ⟨-, -, ⟨-, hnew⟩ | ⟨hne, hp, hnew⟩⟩
    · rwa [hsame]
    · rw [hnew]
      exact .of_pumping rfl (by simp)
    · rw [hnew]
      exact .of_pumping hp hne
  | stops _ => exact ⟨hs.pumping, fun _ => rfl⟩
  | givesUp _ => exact ⟨hs.pumping, hs.idle⟩
  | stopReturns _ => exact ⟨hs.pumping, hs.idle⟩
  | claimsNone hpc =>
    have hp := hs.pumping_of_ne (by simp [hpc])
    exact .of_pumping ((afterFill_pumping _ s).trans hp) (afterFill_pc_ne _ s)
  | claimsJob hpc _ =>
    have hp := hs.pumping_of_ne (by simp [hpc])
    exact .of_pumping hp (by simp)
  | claimsUnknown hpc _ =>
    have hp := hs.pumping_of_ne (by simp [hpc])
    exact .of_pumping ((fill_pumping _ s).trans hp) (fill_pc_ne _ s)
  | fires hpc _ =>
    have hp := hs.pumping_of_ne (by simp [hpc])
    exact .of_pumping hp (by simp)
  | settles _ =>
    simp only [settle]
    split
    · rename_i hrun
      have hne : s.pc ≠ .idle := fun hidle => by simp [hs.idle hidle] at hrun
      have hp := hs.pumping_of_ne hne
      simp only [pump, hp, if_true]
      exact .of_pumping rfl hne
    · exact ⟨hs.pumping, hs.idle⟩
  | drains _ => exact ⟨hs.pumping, hs.idle⟩
  | iterates hpc _ =>
    have hp := hs.pumping_of_ne (by simp [hpc])
    exact .of_pumping ((fill_pumping _ s).trans hp) (fill_pc_ne _ s)
  | stops_looping _ hrun => exact ⟨by simp, fun _ => hrun⟩
  | handled hpc =>
    have hp := hs.pumping_of_ne (by simp [hpc])
    exact .of_pumping ((fill_pumping _ s).trans hp) (fill_pc_ne _ s)

/-- A step that leaves the loop where it was, with at least the runs in flight there were. -/
theorem live_of_same {s t : State} (hq : Quiet s) (hs : Live o s) (hrun : t.running = s.running)
    (hpc : t.pc = s.pc) (htimer : t.pollTimer = s.pollTimer) (hpump : t.pumping = s.pumping)
    (hruns : s.runs ≠ [] → s.pumping = false → t.runs ≠ []) : Live o t := by
  intro ht
  rw [hrun] at ht
  refine live_of_polls ?_ (hrun.trans ht)
  rcases polls_of_live hq ht hs with hc | hw | ⟨hr, hp⟩
  · exact .inl (hpc ▸ hc)
  · exact .inr (.inl (hpc ▸ htimer ▸ hw))
  · exact .inr (.inr ⟨hruns hr hp, hpump.trans hp⟩)

theorem live_fill {s : State} {progressed : Bool} (hok : s.running = true → Free o s) :
    Live o (fill o progressed s) := by
  intro ht
  rw [fill_running] at ht
  rw [fill_free ht (hok ht)]
  exact .inr ⟨0, .inl ⟨progressed, rfl⟩⟩

theorem live_afterFill {s : State} {progressed : Bool} (hok : s.running = true → Free o s) :
    Live o (afterFill o progressed s) := by
  intro ht
  rw [afterFill_running] at ht
  have hfree := hok ht
  cases progressed with
  | true =>
    have hloop : afterFill o true s = { s with pc := .loop } := by simp [afterFill]
    rw [hloop]
    exact live_of_free rfl hfree ht
  | false =>
    have hwait : afterFill o false s = { s with pc := .waiting, pollTimer := .armed } := by
      simp [afterFill, hfree]
    rw [hwait]
    exact .inr ⟨0, .inr (.inl ⟨rfl, rfl⟩)⟩

theorem live_step {s t : State} {a : Action} (hinv : Inv s) (hs : Live o s)
    (hok : ResumesFree o s a) (h : Steps o s a t) : Live o t := by
  cases h with
  | starts hpc =>
    rcases start_cases (o := o) hinv
      with ⟨-, hsame⟩ | ⟨hrun, htypes, ⟨hidle, hnew⟩ | ⟨hne, -, hnew⟩⟩
    · rwa [hsame]
    · rw [hnew]
      exact live_of_free rfl ((hok hrun htypes).1 hidle)
    · rw [hnew]
      rcases hl : s.pc with _ | _ | progressed | _ | _
      · exact absurd hl hne
      · exact absurd hl hpc
      · exact live_of_polls (.inl ⟨progressed, rfl⟩)
      · exact fun _ => .inl rfl
      · exact live_of_polls (.inr (.inl ⟨rfl, (hok hrun htypes).2 hl⟩))
  | stops _ => rintro ⟨⟩
  | givesUp hq => exact live_of_same hq hs rfl rfl rfl rfl fun hr _ => hr
  | stopReturns hq => exact live_of_same hq hs rfl rfl rfl rfl fun hr _ => hr
  | claimsNone _ => exact live_afterFill hok
  | claimsJob _ _ => exact fun _ => .inl rfl
  | claimsUnknown _ htype => exact live_fill (hok htype)
  | fires _ _ =>
    intro ht
    exact live_of_free (s := { s with pollTimer := .fired, pc := .loop }) rfl (hok ht) ht
  | settles hq =>
    simp only [settle]
    split
    · rename_i hrun
      have hne : s.pc ≠ .idle := fun hidle => by simp [hinv.idle hidle] at hrun
      have hp := hinv.pumping_of_ne hne
      simp only [pump, hp, if_true]
      exact live_of_same hq hs rfl rfl rfl hp.symm fun _ hnp => by simp [hp] at hnp
    · rename_i hrun
      exact fun hr => absurd hr hrun
  | drains hq => exact live_of_same hq hs rfl rfl rfl rfl fun _ _ => by simp [register]
  | iterates hpc hrun =>
    have hfree : Free o s := by
      by_contra hfull
      exact not_live_of_saturated hpc hrun (hinv.pumping_of_ne (by simp [hpc])) hfull hs
    rw [fill_free hrun hfree]
    exact live_of_polls (.inl ⟨false, rfl⟩)
  | stops_looping _ hrun => exact fun hr => by simp [hrun] at hr
  | handled hpc => exact live_fill (hok hpc)

/-- A step that misses the condition leaves a running worker that spins, or one that awaits a timer
    which nothing will fire. -/
theorem not_live_step {s t : State} {a : Action} (hinv : Inv s) (hok : ¬ ResumesFree o s a)
    (h : Steps o s a t) : ¬ Live o t := by
  cases h with
  | starts _ =>
    simp only [ResumesFree, not_forall] at hok
    obtain ⟨hrun, htypes, hbad⟩ := hok
    rcases start_cases (o := o) hinv
      with ⟨hno, -⟩ | ⟨-, -, ⟨hidle, hnew⟩ | ⟨hne, hp, hnew⟩⟩
    · rcases hno with hr | hnil
      · rw [hrun] at hr
        cases hr
      · exact absurd hnil htypes
    · rw [hnew]
      refine not_live_of_saturated rfl rfl rfl fun hfree => hbad ⟨fun _ => hfree, fun hw => ?_⟩
      rw [hidle] at hw
      cases hw
    · rw [hnew]
      rw [not_and_or, Classical.not_imp, Classical.not_imp] at hbad
      obtain ⟨hidle, -⟩ | ⟨hwait, htimer⟩ := hbad
      · exact absurd hidle hne
      · intro hlive
        have hq : Quiet { s with running := true } := ⟨by simp [hwait], by simp [hwait]⟩
        rcases polls_of_live hq rfl hlive with ⟨_, hc⟩ | ⟨-, ha⟩ | ⟨-, hnp⟩
        · rw [hwait] at hc
          cases hc
        · exact htimer ha
        · rw [hp] at hnp
          cases hnp
  | @claimsNone progressed hpc =>
    simp only [ResumesFree, not_forall] at hok
    obtain ⟨hrun, hfull⟩ := hok
    rw [afterFill_saturated hrun hfull]
    exact not_live_of_saturated rfl hrun (hinv.pumping_of_ne (by simp [hpc])) hfull
  | claimsJob _ htype => exact absurd (fun hnot => absurd htype hnot) hok
  | claimsUnknown hpc _ =>
    simp only [ResumesFree, not_forall] at hok
    obtain ⟨-, hrun, hfull⟩ := hok
    rw [fill_saturated hrun hfull]
    exact not_live_of_saturated rfl hrun (hinv.pumping_of_ne (by simp [hpc])) hfull
  | fires hpc _ =>
    simp only [ResumesFree, not_forall] at hok
    obtain ⟨hrun, hfull⟩ := hok
    exact not_live_of_saturated rfl hrun (hinv.pumping_of_ne (by simp [hpc])) hfull
  | handled hpc =>
    simp only [ResumesFree, not_forall] at hok
    obtain ⟨-, hrun, hfull⟩ := hok
    rw [fill_saturated hrun hfull]
    exact not_live_of_saturated rfl hrun (hinv.pumping_of_ne (by simp [hpc])) hfull
  | iterates hpc _ => exact absurd (fun hl => by rw [hpc] at hl; cases hl) hok
  | stops_looping hpc _ => exact absurd (fun hl => by rw [hpc] at hl; cases hl) hok
  | _ => exact absurd trivial hok

theorem inv_init : Inv init := ⟨by simp [init], fun _ => rfl⟩

/-- A running worker always has something that will make it poll again exactly in the runs in which
    its loop, whenever it gets its turn again, finds a free slot, and no `start` meets a loop that
    still awaits the timer `stop` has cleared. -/
theorem worker_polls_iff (o : Options) (as : List Action) :
    Everywhere (step o) (Live o) init as ↔ Along (step o) (ResumesFree o) init as :=
  everywhere_iff_along (I := fun s => Inv s ∧ Live o s)
    (fun _ _ _ hs hok h => ⟨inv_step hs.1 (step_cases h), live_step hs.1 hs.2 hok (step_cases h)⟩)
    (fun _ hs => hs.2) (fun _ _ _ hs hok h => not_live_step hs.1 hok (step_cases h))
    ⟨inv_init, by rintro ⟨⟩⟩ as

/-- The poll timer is cleared while the loop awaits it. -/
def restarted : List Action := [.start, .goesOn, .claimed none, .stop, .start]

/-- After the second `start` the worker is running and nothing will ever make it poll. -/
theorem restarted_never_polls : ¬ Everywhere (step oneJob) (Live oneJob) init restarted := by
  intro h
  have hend : (run (step oneJob) init restarted).any (fun s => s.running && s.pumping &&
      decide (s.pc = .waiting) && decide (s.pollTimer = .unset)) = true := by decide
  obtain ⟨s, hs, hend⟩ := (Option.any_eq_true _ _).mp hend
  simp only [Bool.and_eq_true, decide_eq_true_eq] at hend
  obtain ⟨⟨⟨hrun, hpump⟩, hpc⟩, htimer⟩ := hend
  have hq : Quiet s := ⟨by simp [hpc], by simp [hpc]⟩
  rcases polls_of_live hq hrun (h.of_run hs) with ⟨_, hc⟩ | ⟨-, ha⟩ | ⟨-, hnp⟩
  · rw [hpc] at hc
    cases hc
  · rw [htimer] at ha
    cases ha
  · rw [hpump] at hnp
    cases hnp

/-- A loop whose poll timer is gone never goes on, whatever is called. -/
theorem waiting_forever {s t : State} (hs : Reachable (step o) init s) (hpc : s.pc = .waiting)
    (htimer : s.pollTimer = .unset) (h : Reachable (step o) s t) :
    t.pc = .waiting ∧ t.pollTimer = .unset := by
  have hinv : Inv s := reachable_induct (fun _ _ _ hI hv => inv_step hI (step_cases hv)) inv_init hs
  refine (reachable_induct (I := fun t => Inv t ∧ t.pc = .waiting ∧ t.pollTimer = .unset) ?_
    ⟨hinv, hpc, htimer⟩ h).2
  rintro u a v ⟨hu, hupc, hut⟩ hv
  have hsteps := step_cases hv
  have hp := hu.pumping_of_ne (by simp [hupc])
  refine ⟨inv_step hu hsteps, ?_⟩
  cases hsteps with
  | starts _ =>
    rcases start_cases (o := o) hu with ⟨-, hsame⟩ | ⟨-, -, ⟨hidle, -⟩ | ⟨-, -, hnew⟩⟩
    · rw [hsame]
      exact ⟨hupc, hut⟩
    · rw [hupc] at hidle
      cases hidle
    · rw [hnew]
      exact ⟨hupc, hut⟩
  | stops _ => exact ⟨hupc, rfl⟩
  | settles _ =>
    simp only [settle]
    split
    · simp only [pump, hp, if_true]
      exact ⟨hupc, hut⟩
    · exact ⟨hupc, hut⟩
  | givesUp _ | stopReturns _ | drains _ => exact ⟨hupc, hut⟩
  | fires _ harmed => rw [hut] at harmed; cases harmed
  | claimsNone hl | claimsJob hl | claimsUnknown hl | iterates hl | stops_looping hl | handled hl =>
    rw [hupc] at hl
    cases hl

theorem waiting_forever_oneJob : ∃ t, Transition.run (step oneJob)
      ⟨false, true, .unset, ∅, [], 1, .waiting, false⟩ [.start, .stopReturns] = some t ∧
    t.pc = .waiting ∧ t.pollTimer = .unset :=
  ⟨_, rfl, waiting_forever (o := oneJob) ⟨[.start, .goesOn, .claimed none, .stop], rfl⟩ rfl rfl
    ⟨[.start, .stopReturns], rfl⟩⟩

end Remembra.Worker.Pump
