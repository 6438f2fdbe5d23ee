import Mathlib.Algebra.BigOperators.Group.List.Basic
import Remembra.Lib.Indexed
import Remembra.Lib.OrdMap
import Remembra.Lib.Transition

/-! How a durable worker settles and counts the jobs it runs. `run()` is a coroutine beside its own
    renewal timer, whose answers arrive whenever the store gives them, and beside `stop()`, which
    gives up what is still in flight when its time is over. What the store answers, when timers fire
    and when handlers settle is up to the run of the machine.

    A run keeps the counters it has incremented and the outcomes `onSettled` was given for it, so
    that "once" is a fact about each run; the worker's own counters are what its runs have counted
    together (`DurableWorker.stat`). -/

namespace Remembra.Worker
open Transition

inductive Outcome where
  | completed | failed | leaseLost | cancelled
  deriving DecidableEq, Repr

/-- The counters of `stats`. -/
inductive Counter where
  | completed | failed | leaseLost
  deriving DecidableEq, Repr

/-- Where a call of `run()` stands. -/
inductive RunPhase where
  /-- Awaiting `fail("NO_HANDLER")`. -/
  | unhandled
  /-- Awaiting `fail("INVALID_PAYLOAD")`. -/
  | unreadable
  /-- Awaiting the handler. -/
  | handling
  /-- Awaiting `complete`. -/
  | completing
  /-- In the `catch`, awaiting `fail`. -/
  | failing
  /-- Returned before the `try`. -/
  | dropped
  /-- Returned through the `finally`. -/
  | returned
  deriving DecidableEq, Repr

/-- A call of `run()`. `asked` are the renewals the store has not answered yet; the last five fields
    are what has happened: the counters incremented, the outcomes given to `onSettled`, whether a
    refused renewal was counted, whether `stop` gave the run up, and whether the lease was found lost
    before the run was counted as anything else. -/
structure JobRun where
  jobId : String
  phase : RunPhase
  outcome : Outcome
  lostLease : Bool
  aborted : Bool
  renewing : Bool
  asked : ℕ
  counted : List Counter
  settled : List Outcome
  refused : Bool
  givenUp : Bool
  lost : Bool
  deriving DecidableEq, Repr

/-- What the store says to a renewal. -/
inductive Answer where
  | ok | refused | rejected
  deriving DecidableEq, Repr

/-- What can happen to a call of `run()`. -/
inductive RunEvent where
  /-- The renewal timer fires. -/
  | renews
  | renewed (answer : Answer)
  | resolves
  | throws (onErrorThrows : Bool)
  /-- `complete` is answered. -/
  | completes (answer : Answer) (onErrorThrows : Bool)
  /-- `fail` is answered; a rejection is swallowed. -/
  | fails
  deriving DecidableEq, Repr

namespace JobRun

/-- The run has neither returned nor been counted as completed or failed. -/
def Open (r : JobRun) : Prop := r.phase = .unreadable ∨ r.phase = .handling ∨ r.phase = .completing

instance (r : JobRun) : Decidable r.Open := inferInstanceAs (Decidable (_ ∨ _))

/-- `this.completed++`, `this.failed++` or `this.leaseLost++` -/
def count (c : Counter) (r : JobRun) : JobRun := { r with counted := r.counted ++ [c] }

/-- `lostLease = true` and `controller.abort()` -/
def abort (r : JobRun) : JobRun :=
  { r with lostLease := true, aborted := true, lost := r.lost || decide r.Open }

/-- The call of `onSettled`. -/
def settle (outcome : Outcome) (r : JobRun) : JobRun := { r with settled := r.settled ++ [outcome] }

/-- The `finally`. -/
def leave (r : JobRun) : JobRun := { r.settle r.outcome with renewing := false, phase := .returned }

/-- The callback of the renewal timer. -/
def renewed (r : JobRun) : Answer → JobRun
  | .ok => r
  | .refused => if r.lostLease then r else { r.abort.count .leaseLost with refused := true }
  | .rejected => r.abort

/-- The `catch`, up to its `await`: when `onError` throws, the job is not failed at the store. -/
def caught (onErrorThrows : Bool) (r : JobRun) : JobRun :=
  let r := { r with outcome := if r.aborted then .cancelled else .failed }.count .failed
  if onErrorThrows then r.leave else { r with phase := .failing }

/-- What follows the handler. -/
def resolved (r : JobRun) : JobRun :=
  if r.lostLease then { r with outcome := .leaseLost }.leave else { r with phase := .completing }

/-- What follows `complete`. -/
def completed (onErrorThrows : Bool) (r : JobRun) : Answer → JobRun
  | .ok => (r.count .completed).leave
  | .refused => { r with outcome := .leaseLost, lost := true }.count .leaseLost |>.leave
  | .rejected => r.caught onErrorThrows

def step (r : JobRun) : RunEvent → Option JobRun
  | .renews => if r.renewing then some { r with asked := r.asked + 1 } else none
  | .renewed answer => if 0 < r.asked then some ({ r with asked := r.asked - 1 }.renewed answer) else none
  | .resolves => if r.phase = .handling then some r.resolved else none
  | .throws onErrorThrows => if r.phase = .handling then some (r.caught onErrorThrows) else none
  | .completes answer onErrorThrows =>
    if r.phase = .completing then some (r.completed onErrorThrows answer) else none
  | .fails =>
    match r.phase with
    | .unhandled => some { r with phase := .dropped }
    | .unreadable => some ({ r with outcome := .failed }.count .failed).leave
    | .failing => some r.leave
    | _ => none

end JobRun

/-- What the worker was given: the job types with a handler, and which payloads are JSON. -/
structure Handlers where
  handles : String → Bool
  parses : String → Bool

/-- `run(job)` up to its first `await`. -/
def Handlers.begin (w : Handlers) (jobId type payload : String) : JobRun where
  jobId := jobId
  phase := if w.handles type then if w.parses payload then .handling else .unreadable else .unhandled
  outcome := .completed
  lostLease := false
  aborted := false
  renewing := w.handles type
  asked := 0
  counted := []
  settled := []
  refused := false
  givenUp := false
  lost := false

/-- A worker: the runs it has started, `inFlight` with the run that made each entry, and for every
    call of `stop` the entries it has still to give up, the one it is releasing first. -/
structure DurableWorker where
  runs : List JobRun
  inFlight : OrdMap String ℕ
  stops : List (List (String × ℕ))

namespace DurableWorker

def init : DurableWorker := ⟨[], .empty, []⟩

/-- A counter of `stats`: how often the runs have incremented it. -/
def stat (c : Counter) (s : DurableWorker) : ℕ := (s.runs.map (·.counted.count c)).sum

inductive Action where
  /-- A job is claimed and run. -/
  | begins (jobId type payload : String)
  | run (i : ℕ) (e : RunEvent)
  /-- `stop` has waited long enough. -/
  | stops
  /-- The `k`-th `stop` goes on after the store's answers, to `onSettled`, which may throw. -/
  | givesUp (k : ℕ) (throws : Bool)
  deriving DecidableEq, Repr

/-- The turn of the loop of the `k`-th `stop` up to its first `await`, with `todo` left to give up. -/
def release (k : ℕ) (todo : List (String × ℕ)) (s : DurableWorker) : DurableWorker :=
  match todo with
  | [] => { s with stops := s.stops.set k [] }
  | (jobId, i) :: _ =>
    { runs := s.runs.modify i fun r => { r with renewing := false }
      inFlight := s.inFlight.delete jobId
      stops := s.stops.set k todo }

/-- The call of `onSettled` in `stop`. -/
def giveUp (i : ℕ) (s : DurableWorker) : DurableWorker :=
  { s with runs := s.runs.modify i fun r => { r.settle .cancelled with givenUp := true } }

/-- The `i`-th run has become `r'`; the `finally` takes its job out of `inFlight`. -/
def become (i : ℕ) (r r' : JobRun) (s : DurableWorker) : DurableWorker :=
  { s with
    runs := s.runs.set i r'
    inFlight := if r.phase ≠ .returned ∧ r'.phase = .returned then s.inFlight.delete r.jobId else s.inFlight }

def step (w : Handlers) (s : DurableWorker) : Action → Option DurableWorker
  | .begins jobId type payload =>
    some { s with
      runs := s.runs ++ [w.begin jobId type payload]
      inFlight := if w.handles type then s.inFlight.set jobId s.runs.length else s.inFlight }
  | .run i e => (s.runs[i]?).bind fun r => (r.step e).map fun r' => s.become i r r'
  | .stops => some ({ s with stops := s.stops ++ [[]] }.release s.stops.length s.inFlight.entries)
  | .givesUp k throws =>
    match s.stops[k]? with
    | some ((_, i) :: todo) => some ((s.giveUp i).release k (if throws then [] else todo))
    | _ => none

end DurableWorker

/-! ### One run -/

namespace JobRun

/-- Settled at most once and counted at most once, as lost only when the lease was lost; and exactly
    once each when the run has returned. -/
structure Once (r : JobRun) : Prop where
  settled : r.settled.length ≤ 1
  counted : r.counted.length ≤ 1
  lost : r.lost = true → ∀ c ∈ r.counted, c = .leaseLost
  returned : r.phase = .returned ∨ r.phase = .dropped → r.settled.length = 1 ∧ r.counted.length = 1

/-- The step leaves the run settled and counted once: no answer of a renewal is counted after the run
    was; a lost lease ends the run only when its refusal was counted, and through nothing that counts
    the run again; a run without a handler does not return; and no run returns that `stop` gave up. -/
def Meets (r : JobRun) : RunEvent → Prop
  | .renewed .refused => r.lostLease = false → r.Open
  | .resolves => r.lostLease = true → r.refused = true ∧ r.givenUp = false
  | .throws onErrorThrows => r.lostLease = false ∧ (onErrorThrows = true → r.givenUp = false)
  | .completes .ok _ => r.lostLease = false ∧ r.givenUp = false
  | .completes .refused _ => r.refused = false ∧ r.givenUp = false
  | .completes .rejected onErrorThrows =>
    r.lostLease = false ∧ (onErrorThrows = true → r.givenUp = false)
  | .fails => r.phase ≠ .unhandled ∧ (r.phase = .unreadable → r.lostLease = false) ∧ r.givenUp = false
  | .renews | .renewed .ok | .renewed .rejected => True

/-- `stop` gives up a run that has not returned and that no other `stop` has given up. -/
def MayBeGivenUp (r : JobRun) : Prop := r.phase ≠ .returned ∧ r.givenUp = false

/-- What the steps that meet the conditions keep of a run. -/
structure Inv (r : JobRun) : Prop where
  pending : r.phase ≠ .returned → r.settled = if r.givenUp then [.cancelled] else []
  uncounted : r.Open → r.lost = r.lostLease ∧ (r.refused = true → r.lostLease = true) ∧
    r.counted = if r.refused then [.leaseLost] else []
  failing : r.phase = .failing → r.counted = [.failed] ∧ r.lost = false
  unhandled : r.phase = .unhandled →
    r.counted = [] ∧ r.lost = false ∧ r.asked = 0 ∧ r.renewing = false
  returned : r.phase = .returned → r.settled.length = 1 ∧ ∃ c, r.counted = [c] ∧
    (r.lost = true → c = .leaseLost)
  dropped : r.phase ≠ .dropped

variable {r r' : JobRun} {e : RunEvent}

theorem Inv.settled_eq_nil (h : r.Inv) (hp : r.phase ≠ .returned) : r.settled = [] ↔ r.givenUp = false := by
  rw [h.pending hp]
  cases r.givenUp <;> simp

theorem Inv.counted_eq_nil (h : r.Inv) (ho : r.Open) : r.counted = [] ↔ r.refused = false := by
  rw [(h.uncounted ho).2.2]
  cases r.refused <;> simp

/-- A run that has not returned is settled by `stop` alone, and once. -/
theorem Inv.settled_le (h : r.Inv) : r.settled.length ≤ 1 := by
  by_cases hp : r.phase = .returned
  · exact Nat.le_of_eq (h.returned hp).1
  · rw [h.pending hp]
    split <;> simp

/-- Every phase counts at most once, and a lost lease as nothing else. -/
theorem Inv.counted_cases (h : r.Inv) :
    r.counted = [] ∨ ∃ c, r.counted = [c] ∧ (r.lost = true → c = .leaseLost) := by
  have hopen : r.Open → r.counted = [] ∨ ∃ c, r.counted = [c] ∧ (r.lost = true → c = .leaseLost) := by
    intro ho
    rw [(h.uncounted ho).2.2]
    split
    · exact .inr ⟨.leaseLost, rfl, fun _ => rfl⟩
    · exact .inl rfl
  cases hp : r.phase with
  | unhandled => exact .inl (h.unhandled hp).1
  | unreadable => exact hopen (.inl hp)
  | handling => exact hopen (.inr (.inl hp))
  | completing => exact hopen (.inr (.inr hp))
  | failing =>
    obtain ⟨hcount, hlost⟩ := h.failing hp
    exact .inr ⟨.failed, hcount, fun hl => by rw [hlost] at hl; cases hl⟩
  | dropped => exact absurd hp h.dropped
  | returned => exact .inr (h.returned hp).2

theorem Inv.once (h : r.Inv) : r.Once where
  settled := h.settled_le
  counted := by
    rcases h.counted_cases with hc | ⟨c, hc, -⟩ <;> simp [hc]
  lost := by
    intro hlost c hmem
    rcases h.counted_cases with hc | ⟨d, hc, hd⟩
    · rw [hc] at hmem
      cases hmem
    · rw [hc, List.mem_singleton] at hmem
      exact hmem.trans (hd hlost)
  returned := by
    rintro (hp | hp)
    · obtain ⟨hset, c, hc, -⟩ := h.returned hp
      exact ⟨hset, by rw [hc]; rfl⟩
    · exact absurd hp h.dropped

/-- What the `finally` asks of the run that reaches it. -/
def Leaves (r : JobRun) : Prop :=
  r.settled = [] ∧ ∃ c, r.counted = [c] ∧ (r.lost = true → c = .leaseLost)

theorem inv_leave (h : r.Leaves) : r.leave.Inv where
  pending := fun hp => absurd rfl hp
  uncounted := fun ho => by rcases ho with ho | ho | ho <;> cases ho
  failing := fun hp => by cases hp
  unhandled := fun hp => by cases hp
  returned := fun _ => ⟨by simp [leave, settle, h.1], h.2⟩
  dropped := fun hp => by cases hp

theorem leaves_of_once (h : r.leave.Once) : r.Leaves := by
  obtain ⟨hset, hcount⟩ := h.returned (.inl rfl)
  refine ⟨?_, ?_⟩
  · simpa [leave, settle] using hset
  · obtain ⟨c, hc⟩ := List.length_eq_one_iff.mp hcount
    refine ⟨c, hc, fun hlost => h.lost hlost c ?_⟩
    rw [hc]
    exact List.mem_singleton_self c

/-! One event: it keeps the invariant when it meets its condition, and when it does not, the run is no
    longer settled and counted once. -/

theorem inv_asked (h : r.Inv) (hp : r.phase ≠ .unhandled) (n : ℕ) : Inv { r with asked := n } where
  pending := h.pending
  uncounted := h.uncounted
  failing := h.failing
  unhandled := fun hp' => absurd hp' hp
  returned := h.returned
  dropped := h.dropped

/-- Where a renewal is under way the run has a handler. -/
theorem Inv.handled (h : r.Inv) (ha : 0 < r.asked ∨ r.renewing = true) : r.phase ≠ .unhandled := by
  intro hp
  obtain ⟨-, -, hasked, hrenew⟩ := h.unhandled hp
  rcases ha with ha | ha
  · omega
  · rw [hrenew] at ha
    cases ha

/-- A renewal that fails ends nothing and counts nothing. -/
theorem inv_abort (h : r.Inv) (hp : r.phase ≠ .unhandled) : r.abort.Inv where
  pending := h.pending
  uncounted := by
    intro ho
    obtain ⟨-, -, hcount⟩ := h.uncounted ho
    have hopen : r.Open := ho
    exact ⟨by simp [abort, hopen], fun _ => rfl, hcount⟩
  failing := by
    intro hf
    obtain ⟨hcount, hlost⟩ := h.failing hf
    have hphase : r.phase = .failing := hf
    exact ⟨hcount, by simp [abort, hlost, Open, hphase]⟩
  unhandled := fun hp' => absurd hp' hp
  returned := by
    intro hr
    have hphase : r.phase = .returned := hr
    obtain ⟨hset, c, hc, hlost⟩ := h.returned hr
    refine ⟨hset, c, hc, fun hl => hlost ?_⟩
    simpa [abort, Open, hphase] using hl
  dropped := h.dropped

theorem inv_refused (h : r.Inv) (ho : r.Open) (hl : r.lostLease = false) :
    Inv { r.abort.count .leaseLost with refused := true } where
  pending := h.pending
  uncounted := by
    intro _
    obtain ⟨-, hrefused, hcount⟩ := h.uncounted ho
    have hnot : r.refused = false := by
      by_contra hr
      rw [hrefused (by simpa using hr)] at hl
      cases hl
    refine ⟨by simp [abort, count, ho], fun _ => rfl, ?_⟩
    simp [abort, count, hcount, hnot]
  failing := fun hp => by
    have hphase : r.phase = .failing := hp
    rcases ho with ho | ho | ho <;> rw [ho] at hphase <;> cases hphase
  unhandled := fun hp => by
    have hphase : r.phase = .unhandled := hp
    rcases ho with ho | ho | ho <;> rw [ho] at hphase <;> cases hphase
  returned := fun hp => by
    have hphase : r.phase = .returned := hp
    rcases ho with ho | ho | ho <;> rw [ho] at hphase <;> cases hphase
  dropped := h.dropped

/-- Once a run with a handler is no longer open it has been counted. -/
theorem Inv.counted_of_not_open (h : r.Inv) (ho : ¬ r.Open) (hp : r.phase ≠ .unhandled) :
    r.counted.length = 1 := by
  cases hphase : r.phase with
  | unhandled => exact absurd hphase hp
  | unreadable => exact absurd (.inl hphase) ho
  | handling => exact absurd (.inr (.inl hphase)) ho
  | completing => exact absurd (.inr (.inr hphase)) ho
  | failing => rw [(h.failing hphase).1]; rfl
  | dropped => exact absurd hphase h.dropped
  | returned =>
    obtain ⟨-, c, hc, -⟩ := h.returned hphase
    rw [hc]
    rfl

theorem renewed_spec (h : r.Inv) (hp : r.phase ≠ .unhandled) (answer : Answer) :
    (r.Meets (.renewed answer) → (r.renewed answer).Inv) ∧
      ((r.renewed answer).Once → r.Meets (.renewed answer)) := by
  cases answer with
  | ok => exact ⟨fun _ => h, fun _ => trivial⟩
  | rejected => exact ⟨fun _ => inv_abort h hp, fun _ => trivial⟩
  | refused =>
    cases hl : r.lostLease with
    | true =>
      have hsame : r.renewed .refused = r := by simp [renewed, hl]
      rw [hsame]
      exact ⟨fun _ => h, fun _ hl' => by rw [hl] at hl'; cases hl'⟩
    | false =>
      have hcount : r.renewed .refused = { r.abort.count .leaseLost with refused := true } := by
        simp [renewed, hl]
      rw [hcount]
      refine ⟨fun hmeets => inv_refused h (hmeets hl) hl, fun honce _ => ?_⟩
      by_contra ho
      have hlen := h.counted_of_not_open ho hp
      have htwo : (r.counted ++ [Counter.leaseLost]).length ≤ 1 := honce.counted
      rw [List.length_append, hlen] at htwo
      exact absurd htwo (by decide)

/-- The outcome is only what `onSettled` is told. -/
theorem leaves_outcome {o : Outcome} : Leaves { r with outcome := o } ↔ r.Leaves := Iff.rfl

/-- Counting an open run as completed or failed, just before it leaves. -/
theorem leaves_count (h : r.Inv) (ho : r.Open) {c : Counter} (hc : c ≠ .leaseLost) :
    (r.count c).Leaves ↔ r.lostLease = false ∧ r.givenUp = false := by
  have hp : r.phase ≠ .returned := fun hp => by
    rcases ho with ho | ho | ho <;> rw [ho] at hp <;> cases hp
  obtain ⟨hlost, hrefused, -⟩ := h.uncounted ho
  constructor
  · rintro ⟨hset, d, hd, hl⟩
    refine ⟨?_, (h.settled_eq_nil hp).mp hset⟩
    rw [count, List.append_eq_singleton_iff] at hd
    rcases hd with ⟨-, hd⟩ | ⟨-, hd⟩
    · rw [← hlost]
      by_contra hne
      rw [List.cons.injEq] at hd
      exact hc (hd.1.trans (hl (by simpa [count] using hne)))
    · cases hd
  · rintro ⟨hl, hg⟩
    have hr : r.refused = false := by
      by_contra hr
      rw [hrefused (by simpa using hr)] at hl
      cases hl
    refine ⟨(h.settled_eq_nil hp).mpr hg, c, ?_, ?_⟩
    · rw [count, (h.counted_eq_nil ho).mpr hr]
      rfl
    · intro hlost'
      have : r.lost = true := hlost'
      rw [hlost, hl] at this
      cases this

theorem Open.ne_returned (ho : r.Open) : r.phase ≠ .returned := by
  intro hp
  rcases ho with ho | ho | ho <;> rw [ho] at hp <;> cases hp

/-- Counting an open run as lost, just before it leaves. -/
theorem leaves_lost (h : r.Inv) (ho : r.Open) {o : Outcome} :
    ({ r with outcome := o, lost := true }.count .leaseLost).Leaves ↔
      r.refused = false ∧ r.givenUp = false := by
  rw [← h.counted_eq_nil ho, ← h.settled_eq_nil ho.ne_returned]
  constructor
  · rintro ⟨hset, d, hd, -⟩
    rw [count, List.append_eq_singleton_iff] at hd
    rcases hd with ⟨hd, -⟩ | ⟨-, hd⟩
    · exact ⟨hd, hset⟩
    · cases hd
  · rintro ⟨hcount, hset⟩
    exact ⟨hset, .leaseLost, by simp [count, hcount], fun _ => rfl⟩

/-- An open run that leaves without being counted. -/
theorem leaves_open (h : r.Inv) (ho : r.Open) : r.Leaves ↔ r.refused = true ∧ r.givenUp = false := by
  rw [← h.settled_eq_nil ho.ne_returned, Leaves, (h.uncounted ho).2.2]
  cases r.refused with
  | false => simp
  | true => simp

theorem resolved_spec (h : r.Inv) (hp : r.phase = .handling) :
    (r.Meets .resolves → r.resolved.Inv) ∧ (r.resolved.Once → r.Meets .resolves) := by
  have ho : r.Open := .inr (.inl hp)
  cases hl : r.lostLease with
  | true =>
    have hleaves : ({ r with outcome := .leaseLost } : JobRun).Leaves ↔
        r.refused = true ∧ r.givenUp = false := leaves_outcome.trans (leaves_open h ho)
    rw [resolved, if_pos hl]
    exact ⟨fun hmeets => inv_leave (hleaves.mpr (hmeets hl)),
      fun honce _ => hleaves.mp (leaves_of_once honce)⟩
  | false =>
    have hgo : r.resolved = { r with phase := .completing } := by simp [resolved, hl]
    rw [hgo]
    refine ⟨fun _ => ?_, fun _ hl' => by rw [hl] at hl'; cases hl'⟩
    constructor
    · exact fun _ => h.pending ho.ne_returned
    · exact fun _ => h.uncounted ho
    · exact fun hf => by cases hf
    · exact fun hf => by cases hf
    · exact fun hf => by cases hf
    · exact fun hf => by cases hf

theorem caught_spec (h : r.Inv) (ho : r.Open) (onErrorThrows : Bool) :
    (r.lostLease = false ∧ (onErrorThrows = true → r.givenUp = false) →
      (r.caught onErrorThrows).Inv) ∧
    ((r.caught onErrorThrows).Once →
      r.lostLease = false ∧ (onErrorThrows = true → r.givenUp = false)) := by
  cases onErrorThrows with
  | true =>
    have hleaves : (({ r with outcome := if r.aborted then .cancelled else .failed } : JobRun).count
        .failed).Leaves ↔ r.lostLease = false ∧ r.givenUp = false := leaves_count h ho (by decide)
    constructor
    · rintro ⟨hl, hg⟩
      exact inv_leave (hleaves.mpr ⟨hl, hg rfl⟩)
    · intro honce
      obtain ⟨hl, hg⟩ := hleaves.mp (leaves_of_once honce)
      exact ⟨hl, fun _ => hg⟩
  | false =>
    obtain ⟨hlost, hrefused, hcount⟩ := h.uncounted ho
    constructor
    · rintro ⟨hl, -⟩
      have hr : r.refused = false := by
        by_contra hr
        rw [hrefused (by simpa using hr)] at hl
        cases hl
      have hnil : r.counted = [] := (h.counted_eq_nil ho).mpr hr
      constructor
      · exact fun _ => h.pending ho.ne_returned
      · exact fun hp => by rcases hp with hp | hp | hp <;> cases hp
      · exact fun _ => ⟨by simp [caught, count, hnil], hlost.trans hl⟩
      · exact fun hf => by cases hf
      · exact fun hf => by cases hf
      · exact fun hf => by cases hf
    · intro honce
      refine ⟨?_, fun ht => by cases ht⟩
      rw [← hlost]
      by_contra hl
      -- the failure is counted beside the loss
      have hall := honce.lost (by simpa [caught, count] using hl) .failed
        (List.mem_append_right _ (List.mem_singleton_self _))
      cases hall

theorem completed_spec (h : r.Inv) (hp : r.phase = .completing) (answer : Answer) (onErrorThrows : Bool) :
    (r.Meets (.completes answer onErrorThrows) → (r.completed onErrorThrows answer).Inv) ∧
      ((r.completed onErrorThrows answer).Once → r.Meets (.completes answer onErrorThrows)) := by
  have ho : r.Open := .inr (.inr hp)
  cases answer with
  | ok =>
    have hleaves := leaves_count (c := .completed) h ho (by decide)
    exact ⟨fun hmeets => inv_leave (hleaves.mpr hmeets),
      fun honce => hleaves.mp (leaves_of_once honce)⟩
  | refused =>
    have hleaves := leaves_lost (o := .leaseLost) h ho
    exact ⟨fun hmeets => inv_leave (hleaves.mpr hmeets),
      fun honce => hleaves.mp (leaves_of_once honce)⟩
  | rejected => exact caught_spec h ho onErrorThrows

/-- A run in its `catch` that leaves. -/
theorem leaves_failing (h : r.Inv) (hp : r.phase = .failing) : r.Leaves ↔ r.givenUp = false := by
  obtain ⟨hcount, hlost⟩ := h.failing hp
  have hne : r.phase ≠ .returned := by
    rw [hp]
    decide
  rw [← h.settled_eq_nil hne, Leaves, hcount, hlost]
  simp

/-- The step lemma of a run: the invariant is kept exactly by the events that meet their condition,
    and any other leaves a run that is not settled and counted once. -/
theorem step_spec (h : r.Inv) (hs : r.step e = some r') :
    (r.Meets e → r'.Inv) ∧ (r'.Once → r.Meets e) := by
  cases e with
  | renews =>
    simp only [step, Option.ite_none_right_eq_some, Option.some.injEq] at hs
    obtain ⟨hrenew, rfl⟩ := hs
    exact ⟨fun _ => inv_asked h (h.handled (.inr hrenew)) _, fun _ => trivial⟩
  | renewed answer =>
    simp only [step, Option.ite_none_right_eq_some, Option.some.injEq] at hs
    obtain ⟨hasked, rfl⟩ := hs
    have hp := h.handled (.inl hasked)
    exact renewed_spec (inv_asked h hp (r.asked - 1)) hp answer
  | resolves =>
    simp only [step, Option.ite_none_right_eq_some, Option.some.injEq] at hs
    obtain ⟨hp, rfl⟩ := hs
    exact resolved_spec h hp
  | throws onErrorThrows =>
    simp only [step, Option.ite_none_right_eq_some, Option.some.injEq] at hs
    obtain ⟨hp, rfl⟩ := hs
    exact caught_spec h (.inr (.inl hp)) onErrorThrows
  | completes answer onErrorThrows =>
    simp only [step, Option.ite_none_right_eq_some, Option.some.injEq] at hs
    obtain ⟨hp, rfl⟩ := hs
    exact completed_spec h hp answer onErrorThrows
  | fails =>
    rw [Meets]
    cases hp : r.phase with
    | unhandled =>
      simp only [step, hp, Option.some.injEq] at hs
      subst hs
      refine ⟨fun hmeets => absurd rfl hmeets.1, fun honce => ?_⟩
      -- nothing was counted
      have hone := (honce.returned (.inr rfl)).2
      rw [show ({ r with phase := .dropped } : JobRun).counted = [] from (h.unhandled hp).1] at hone
      cases hone
    | unreadable =>
      simp only [step, hp, Option.some.injEq] at hs
      subst hs
      have hleaves : (({ r with outcome := .failed } : JobRun).count .failed).Leaves ↔
          r.lostLease = false ∧ r.givenUp = false := leaves_count h (.inl hp) (by decide)
      refine ⟨fun hmeets => inv_leave (hleaves.mpr ⟨hmeets.2.1 rfl, hmeets.2.2⟩), fun honce => ?_⟩
      obtain ⟨hl, hg⟩ := hleaves.mp (leaves_of_once honce)
      exact ⟨by decide, fun _ => hl, hg⟩
    | failing =>
      simp only [step, hp, Option.some.injEq] at hs
      subst hs
      refine ⟨fun hmeets => inv_leave ((leaves_failing h hp).mpr hmeets.2.2), fun honce => ?_⟩
      exact ⟨by decide, fun hu => (by cases hu), (leaves_failing h hp).mp (leaves_of_once honce)⟩
    | handling => simp [step, hp] at hs
    | completing => simp [step, hp] at hs
    | dropped => simp [step, hp] at hs
    | returned => simp [step, hp] at hs

/-- A run that has just begun. -/
theorem inv_begin (w : Handlers) (jobId type payload : String) :
    (w.begin jobId type payload).Inv := by
  constructor
  · exact fun _ => rfl
  · exact fun _ => ⟨rfl, fun hr => hr, rfl⟩
  · intro hp
    have hphase : (w.begin jobId type payload).phase ≠ .failing := by
      simp only [Handlers.begin]
      split <;> [split; skip] <;> decide
    exact absurd hp hphase
  · intro hp
    refine ⟨rfl, rfl, rfl, ?_⟩
    cases hh : w.handles type with
    | false => exact hh
    | true =>
      simp only [Handlers.begin, hh, if_true] at hp
      split at hp <;> cases hp
  · intro hp
    have hphase : (w.begin jobId type payload).phase ≠ .returned := by
      simp only [Handlers.begin]
      split <;> [split; skip] <;> decide
    exact absurd hp hphase
  · simp only [Handlers.begin]
    split <;> [split; skip] <;> decide

/-- `stop` clears the timer of a run. -/
theorem inv_cleared (h : r.Inv) : Inv { r with renewing := false } where
  pending := h.pending
  uncounted := h.uncounted
  failing := h.failing
  unhandled := fun hp => ⟨(h.unhandled hp).1, (h.unhandled hp).2.1, (h.unhandled hp).2.2.1, rfl⟩
  returned := h.returned
  dropped := h.dropped

/-- `stop` gives up a run. -/
theorem giveUp_spec (h : r.Inv) :
    (r.MayBeGivenUp → Inv { r.settle .cancelled with givenUp := true }) ∧
      (Once { r.settle .cancelled with givenUp := true } → r.MayBeGivenUp) := by
  constructor
  · rintro ⟨hp, hg⟩
    have hset : r.settled = [] := (h.settled_eq_nil hp).mpr hg
    constructor
    · exact fun _ => by simp [settle, hset]
    · exact h.uncounted
    · exact h.failing
    · exact h.unhandled
    · exact fun hp' => absurd hp' hp
    · exact h.dropped
  · intro honce
    have hlen : (r.settled ++ [Outcome.cancelled]).length ≤ 1 := honce.settled
    rw [List.length_append, List.length_singleton] at hlen
    have hset : r.settled = [] := List.length_eq_zero_iff.mp (by omega)
    have hp : r.phase ≠ .returned := by
      intro hp
      have hone := (h.returned hp).1
      rw [hset] at hone
      cases hone
    exact ⟨hp, (h.settled_eq_nil hp).mp hset⟩

end JobRun

/-! ### All runs of a worker -/

namespace DurableWorker

/-- Every run that was started is settled and counted once. -/
def SettledOnce (s : DurableWorker) : Prop := ∀ (i : ℕ) (r : JobRun), s.runs[i]? = some r → r.Once

/-- The step leaves the run it is about settled and counted once. -/
def Meets (s : DurableWorker) : Action → Prop
  | .begins _ _ _ | .stops => True
  | .run i e => ∀ r : JobRun, s.runs[i]? = some r → r.Meets e
  | .givesUp k _ => ∀ jobId i todo (r : JobRun), s.stops[k]? = some ((jobId, i) :: todo) →
    s.runs[i]? = some r → r.MayBeGivenUp

def Inv (s : DurableWorker) : Prop := ∀ (i : ℕ) (r : JobRun), s.runs[i]? = some r → r.Inv

variable {w : Handlers} {s t : DurableWorker} {a : Action}

theorem inv_release (h : s.Inv) (k : ℕ) (todo : List (String × ℕ)) : (s.release k todo).Inv := by
  cases todo with
  | nil => exact h
  | cons e todo =>
    intro j r hr
    rcases Indexed.getElem?_modify_some hr with ⟨-, hj⟩ | ⟨-, b, hb, rfl⟩
    · exact h j r hj
    · exact JobRun.inv_cleared (h _ b hb)

/-- Clearing a timer settles nothing and counts nothing. -/
theorem once_of_release {k : ℕ} {todo : List (String × ℕ)} (h : (s.release k todo).SettledOnce) :
    s.SettledOnce := by
  cases todo with
  | nil => exact h
  | cons e todo =>
    intro j r hr
    by_cases hj : e.2 = j
    · have hone : JobRun.Once { r with renewing := false } := h j _ (by
        simp [release, hj, hr])
      exact ⟨hone.settled, hone.counted, hone.lost, hone.returned⟩
    · exact h j r (by simp [release, hj, hr])

theorem inv_step (h : s.Inv) (hok : s.Meets a) (hs : step w s a = some t) : t.Inv := by
  cases a with
  | begins jobId type payload =>
    rw [step, Option.some.injEq] at hs
    subst hs
    exact Indexed.forall_concat h (JobRun.inv_begin w jobId type payload)
  | run i e =>
    rw [step, Option.bind_eq_some_iff] at hs
    obtain ⟨r, hr, hs⟩ := hs
    obtain ⟨r', hr', rfl⟩ := Option.map_eq_some_iff.mp hs
    have hnext : r'.Inv := (JobRun.step_spec (h i r hr) hr').1 (hok r hr)
    exact Indexed.forall_set (fun j b _ hj => h j b hj) hnext
  | stops =>
    rw [step, Option.some.injEq] at hs
    subst hs
    exact inv_release (show Inv { s with stops := s.stops ++ [[]] } from h) _ _
  | givesUp k throws =>
    rw [step] at hs
    split at hs
    · rename_i jobId i todo hk
      rw [Option.some.injEq] at hs
      subst hs
      refine inv_release ?_ _ _
      intro j r hr
      rcases Indexed.getElem?_modify_some hr with ⟨-, hj⟩ | ⟨rfl, b, hb, rfl⟩
      · exact h j r hj
      · exact (JobRun.giveUp_spec (h _ b hb)).1 (hok jobId _ todo b hk hb)
    · cases hs

/-- A step that does not meet its condition is seen in the run it is about. -/
theorem not_once_step (h : s.Inv) (hok : ¬ s.Meets a) (hs : step w s a = some t) : ¬ t.SettledOnce := by
  intro honce
  refine hok ?_
  cases a with
  | begins jobId type payload => trivial
  | stops => trivial
  | run i e =>
    rw [step, Option.bind_eq_some_iff] at hs
    obtain ⟨r, hr, hs⟩ := hs
    obtain ⟨r', hr', rfl⟩ := Option.map_eq_some_iff.mp hs
    intro q hq
    obtain rfl : r = q := Option.some.inj (hr.symm.trans hq)
    have hlt : i < s.runs.length := (List.getElem?_eq_some_iff.mp hr).1
    exact (JobRun.step_spec (h i r hr) hr').2 (honce i r' (List.getElem?_set_self hlt))
  | givesUp k throws =>
    intro jobId i todo r hk hr
    rw [step, hk, Option.some.injEq] at hs
    subst hs
    refine (JobRun.giveUp_spec (h i r hr)).2 (once_of_release honce i _ ?_)
    simp [giveUp, hr]

/-- Every run is settled once and counted once, at any moment of any life of the worker, exactly when
    every step meets its condition. -/
theorem settled_once_iff (w : Handlers) (as : List Action) :
    Everywhere (step w) SettledOnce init as ↔ Along (step w) Meets init as :=
  everywhere_iff_along (fun _ _ _ hI hok hs => inv_step hI hok hs)
    (fun _ hI i r hr => (hI i r hr).once) (fun _ _ _ hI hok hs => not_once_step hI hok hs)
    (show Inv init from fun _ _ hr => by cases hr) as

/-- A worker with a handler for one type. -/
def oneType : Handlers := ⟨fun type => type == "t", fun _ => true⟩

/-- The run has returned and was not counted once. -/
def Miscounted (s : DurableWorker) : Bool :=
  s.runs.any fun r => r.phase == .returned && r.counted.length != 1

theorem not_settledOnce_of_miscounted (h : s.Miscounted = true) : ¬ s.SettledOnce := by
  intro honce
  obtain ⟨r, hr, hbad⟩ := List.any_eq_true.mp h
  obtain ⟨i, hi⟩ := List.mem_iff_getElem?.mp hr
  simp only [Bool.and_eq_true, beq_iff_eq, bne_iff_ne] at hbad
  exact hbad.2 ((honce i r hi).returned (.inl hbad.1)).2

/-- A renewal that fails is counted nowhere, and one that is refused is counted beside the failure of the
    handler it aborts. -/
theorem lost_lease_miscounted :
    ¬ Everywhere (step oneType) SettledOnce init [.begins "j" "t" "null", .run 0 .renews,
        .run 0 (.renewed .rejected), .run 0 .resolves] ∧
    ¬ Everywhere (step oneType) SettledOnce init [.begins "j" "t" "null", .run 0 .renews,
        .run 0 (.renewed .refused), .run 0 (.throws false), .run 0 .fails] :=
  ⟨not_everywhere Miscounted (by decide) fun _ => not_settledOnce_of_miscounted,
    not_everywhere Miscounted (by decide) fun _ => not_settledOnce_of_miscounted⟩

/-- Nothing is lost of what a run has counted. -/
theorem count_add_count (l : List Counter) :
    l.count .completed + l.count .failed + l.count .leaseLost = l.length := by
  induction l with
  | nil => rfl
  | cons c l ih => cases c <;> simp only [List.count_cons, List.length_cons] <;> simp <;> omega

/-- At the end of a run of the worker in which every step meets its condition and every run has
    returned, the counters of `stats` add up to the runs. -/
theorem stats_eq_runs {w : Handlers} {as : List Action} (hmeets : Along (step w) Meets init as)
    (hrun : Transition.run (step w) init as = some s) (hret : ∀ r ∈ s.runs, r.phase = .returned) :
    s.stat .completed + s.stat .failed + s.stat .leaseLost = s.runs.length := by
  have hinv : Inv s := run_induct (fun _ _ _ hI hok hs => inv_step hI hok hs) as
    (fun _ _ hr => by cases hr) hmeets hrun
  have hone : ∀ r ∈ s.runs, r.counted.length = 1 := by
    intro r hr
    obtain ⟨i, hi⟩ := List.mem_iff_getElem?.mp hr
    exact ((hinv i r hi).once.returned (.inl (hret r hr))).2
  simp only [stat, ← List.sum_map_add, count_add_count]
  rw [List.map_congr_left hone, List.map_const', List.sum_replicate_nat, Nat.mul_one]

/-- A job is handled and completed. -/
def handled : List Action := [.begins "j" "t" "null", .run 0 .resolves, .run 0 (.completes .ok false)]

theorem stats_eq_runs_handled : ∃ s, Transition.run (step oneType) init handled = some s ∧
    s.stat .completed + s.stat .failed + s.stat .leaseLost = s.runs.length := by
  have hmeets : Along (step oneType) Meets init handled := by
    refine along_cons rfl trivial (along_cons rfl ?_ (along_cons rfl ?_ trivial))
    · exact fun r hr => Option.some.inj hr ▸ nofun
    · exact fun r hr => Option.some.inj hr ▸ ⟨rfl, rfl⟩
  exact ⟨_, rfl, stats_eq_runs hmeets rfl (by decide)⟩

end DurableWorker
end Remembra.Worker
