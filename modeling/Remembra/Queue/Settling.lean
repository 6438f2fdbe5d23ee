import Remembra.Queue.Invariant

/-! Every job of the queue settles. The steps that are no calls of the queue's users (a handler
    settles, a retry's wait ends, a continuation is resumed, a call goes on) all take weight from the
    queue, so between two calls there are only so many of them; and where none is left, every job has
    its one result. With what the invariant says of the pool, the order and the shutdown, this is the
    safety of the queue over whole runs. -/

namespace Remembra.Queue.JobQueue
open Transition

variable (o : Options)

/-! ### Weight -/

def Phase.weight : Phase → ℕ
  | .waiting => 5 + 3 * o.maxAttempts
  | .handling attempt => 6 + 3 * (o.maxAttempts - attempt)
  | .retrying attempt => 5 + 3 * (o.maxAttempts - attempt)
  | .returned => 2
  | .done => 0

@[simp] theorem Phase.weight_waiting : Phase.weight o .waiting = 5 + 3 * o.maxAttempts := rfl
@[simp] theorem Phase.weight_handling (attempt : ℕ) :
    Phase.weight o (.handling attempt) = 6 + 3 * (o.maxAttempts - attempt) := rfl
@[simp] theorem Phase.weight_retrying (attempt : ℕ) :
    Phase.weight o (.retrying attempt) = 5 + 3 * (o.maxAttempts - attempt) := rfl
@[simp] theorem Phase.weight_returned : Phase.weight o .returned = 2 := rfl

def Frame.weight : Frame → ℕ
  | .shutdown => 4
  | .pump | .handler _ | .user => 1

def Waiter.weight (w : Waiter) : ℕ :=
  match w.status with
  | .waiting => 3
  | .released => 2
  | .drained => 1
  | .shutDown => 0

/-- How many steps of its own the queue can still take, at most. -/
def weight (s : State) : ℕ :=
  (s.jobs.map (·.phase.weight o)).sum + (s.stack.map Frame.weight).sum +
    (s.waiters.map Waiter.weight).sum + 2 * s.toAbort.length

/-- A step that is no call of the queue's users. -/
def Action.Internal : Action → Prop
  | .register _ | .enqueue _ | .drain | .shutdown => False
  | .goesOn | .throws | .handlerSettles _ _ | .retries _ | .finally _ | .resumes _ => True

variable {o} {s : State}

theorem callbacks_weight (state : Outcome) (job : Job) :
    ((job.callbacks state).map Frame.weight).sum ≤ 2 := by
  rw [Job.callbacks]
  split
  · simp
  · split <;> simp [Frame.weight]

theorem callbacks_cancelled_weight (job : Job) :
    ((job.callbacks .cancelled).map Frame.weight).sum ≤ 1 := by
  rw [Job.callbacks]
  split <;> simp [Frame.weight]

/-- A job is changed in place, and calls are put on the stack. -/
theorem weight_change {i : ℕ} {job : Job} (hi : s.jobs[i]? = some job) (f : Job → Job)
    (pre : List Frame) :
    weight o { s with jobs := s.jobs.modify i f, stack := pre ++ s.stack } + job.phase.weight o =
      weight o s + (f job).phase.weight o + (pre.map Frame.weight).sum := by
  have := Indexed.sum_map_modify (fun job : Job => job.phase.weight o) (f := f) hi
  simp only [weight, List.map_append, List.sum_append]
  omega

theorem weight_finish {i : ℕ} {job' : Job} (hi : s.jobs[i]? = some job') (job : Job)
    (state : Outcome) (attempts : ℕ) : weight o (finish i job state attempts s) + job'.phase.weight o ≤
      weight o s + 4 := by
  have hchange : weight o (finish i job state attempts s) + job'.phase.weight o =
      weight o s + 2 + ((job.callbacks state).map Frame.weight).sum := weight_change hi _ _
  have hcall := callbacks_weight state job
  omega

theorem weight_beginAttempt {i : ℕ} {job : Job} (hi : s.jobs[i]? = some job) (attempt : ℕ)
    (hle : attempt ≤ o.maxAttempts) : weight o (beginAttempt o i job attempt s) +
      job.phase.weight o ≤ weight o s + 7 + 3 * (o.maxAttempts - attempt) := by
  have hi' : (s.jobs.modify i fun job => { job with attempts := attempt })[i]? =
      some { job with attempts := attempt } := by
    simp [hi]
  have hsame : weight o { s with
      jobs := s.jobs.modify i fun job => { job with attempts := attempt } } = weight o s :=
    Nat.add_right_cancel (weight_change hi _ [])
  rw [beginAttempt, if_pos hle]
  cases job.aborted with
  | true =>
    have hfinish := weight_finish (o := o) (s := { s with
      jobs := s.jobs.modify i fun job => { job with attempts := attempt } }) hi' job
      .cancelled attempt
    dsimp only at hfinish
    simp only [if_true]
    omega
  | false =>
    simp only [Bool.false_eq_true, if_false]
    refine Nat.le_trans (Nat.le_of_eq (weight_change (s := { s with
      jobs := s.jobs.modify i fun job => { job with attempts := attempt }
      calls := s.calls ++ [⟨i, attempt, s.closed⟩] }) hi' _ [.handler i])) ?_
    change weight o { s with
      jobs := s.jobs.modify i fun job => { job with attempts := attempt } } +
        (6 + 3 * (o.maxAttempts - attempt)) + 1 ≤ _
    omega

theorem weight_rejected {i : ℕ} {job : Job} (hi : s.jobs[i]? = some job) {attempt : ℕ}
    (hp : job.phase = .handling attempt) :
    weight o (rejected o i job attempt s) < weight o s := by
  have hfinish := fun state => weight_finish (o := o) hi job state attempt
  have hretry := weight_change (o := o) hi (fun job => { job with phase := .retrying attempt }) []
  simp only [hp, Phase.weight_handling, Phase.weight_retrying, List.map_nil, List.sum_nil,
    List.nil_append] at hfinish hretry
  rw [rejected]
  split
  · have := hfinish .cancelled
    omega
  · split
    · have := hfinish .failed
      omega
    · omega

theorem weight_retried (h : Inv o s) {i : ℕ} {job : Job} (hi : s.jobs[i]? = some job)
    {attempt : ℕ} (hp : job.phase = .retrying attempt) :
    weight o (retried o i job attempt s) < weight o s := by
  have hlt : 0 < attempt ∧ attempt < o.maxAttempts := by
    have := (h.jobs i job hi).bounded
    rwa [hp] at this
  rw [retried]
  split
  · have := weight_finish (o := o) hi job .cancelled attempt
    rw [hp, Phase.weight_retrying] at this
    omega
  · have := weight_beginAttempt (o := o) hi (attempt + 1) hlt.2
    rw [hp, Phase.weight_retrying] at this
    omega

theorem weight_notifyDrain (s : State) : weight o (notifyDrain s) ≤ weight o s := by
  have hle : ∀ waiters : List Waiter, ((waiters.map fun w =>
      if w.status = .waiting then { w with status := .released } else w).map
        Waiter.weight).sum ≤ (waiters.map Waiter.weight).sum := by
    intro waiters
    induction waiters with
    | nil => exact Nat.le_refl _
    | cons w waiters ih =>
      have : (if w.status = .waiting then { w with status := .released } else w).weight ≤
          w.weight := by
        split
        · rename_i hw
          simp [Waiter.weight, hw]
        · exact Nat.le_refl _
      simp only [List.map_cons, List.sum_cons]
      omega
  rw [notifyDrain]
  split
  · exact Nat.le_refl _
  · have := hle s.waiters
    simp only [weight]
    omega

theorem weight_pump (h : Inv o s) {stack : List Frame} (hs : s.stack = .pump :: stack) :
    weight o (pump o s) < weight o s := by
  have hleave : weight o (notifyDrain { s with stack := s.stack.tail }) < weight o s := by
    have := weight_notifyDrain (o := o) { s with stack := s.stack.tail }
    refine Nat.lt_of_le_of_lt this ?_
    simp only [weight, hs, List.tail_cons, List.map_cons, List.sum_cons, Frame.weight]
    omega
  rw [pump]
  split
  · rename_i i queue hq
    split
    · have hwaits : Waits s i := .inl (hq ▸ List.mem_cons_self ..)
      have hlt : i < s.jobs.length := h.ctl.known i (.inl hwaits)
      have hi : s.jobs[i]? = some s.jobs[i] := List.getElem?_eq_getElem hlt
      simp only [hi]
      have hbegin := weight_beginAttempt (o := o) (s := { s with
        queue := queue, running := s.running ++ [i], starts := s.starts ++ [i] }) hi 1
        o.maxAttempts_pos
      rw [(h.jobs i _ hi).waits.mpr hwaits, Phase.weight_waiting] at hbegin
      have hsame : weight o { s with
        queue := queue, running := s.running ++ [i], starts := s.starts ++ [i] } = weight o s := rfl
      have hpos := o.maxAttempts_pos
      omega
    · exact hleave
  · exact hleave

theorem weight_cancelQueued (h : Inv o s) {i : ℕ} {cancelling : List ℕ}
    (hi : s.cancelling = i :: cancelling) :
    weight o (cancelQueued i cancelling s) < weight o s := by
  have hwaits : Waits s i := .inr (hi ▸ List.mem_cons_self ..)
  have hlt : i < s.jobs.length := h.ctl.known i (.inl hwaits)
  have hjob : s.jobs[i]? = some s.jobs[i] := List.getElem?_eq_getElem hlt
  have hchange : weight o (cancelQueued i cancelling s) + s.jobs[i].phase.weight o =
      weight o s + 0 + (((s.jobs[i]?).elim [] (·.callbacks .cancelled)).map Frame.weight).sum :=
    weight_change (s := { s with cancelling := cancelling }) hjob _ _
  rw [(h.jobs i _ hjob).waits.mpr hwaits, Phase.weight_waiting, hjob, Option.elim_some] at hchange
  have hcall := callbacks_cancelled_weight s.jobs[i]
  omega

theorem weight_shutdownLoop (h : Inv o s) {stack : List Frame}
    (hs : s.stack = .shutdown :: stack) : weight o (shutdownLoop s) < weight o s := by
  rw [shutdownLoop]
  split
  · rename_i hi
    exact weight_cancelQueued h hi
  · rename_i i toAbort _ hi
    have hsame : ((s.jobs.modify i fun job => { job with aborted := true }).map
        fun job => job.phase.weight o).sum = (s.jobs.map fun job => job.phase.weight o).sum := by
      rcases hjob : s.jobs[i]? with _ | job
      · rw [List.modify_eq_self (List.getElem?_eq_none_iff.mp hjob)]
      · exact Nat.add_right_cancel (Indexed.sum_map_modify (fun job : Job => job.phase.weight o)
          (f := fun job : Job => { job with aborted := true }) hjob)
    simp only [weight, abortRunning, hsame, hi, List.map_cons, List.sum_cons, Frame.weight,
      List.length_cons]
    omega
  · have : ∀ status : Status, (Waiter.mk true status).weight ≤ 3 := by
      intro status
      cases status <;> simp [Waiter.weight]
    have := this (if s.queue = [] ∧ s.running = [] then .drained else .waiting)
    simp only [weight, drain, hs, List.tail_cons, List.map_append, List.map_cons, List.map_nil,
      List.sum_append, List.sum_cons, List.sum_nil, Frame.weight]
    omega

theorem weight_settles {i : ℕ} {job : Job} (hi : s.jobs[i]? = some job)
    (hp : job.phase = .returned) : weight o (settles i s) < weight o s := by
  have hnotify := weight_notifyDrain (o := o) { s with
    running := s.running.erase i
    jobs := s.jobs.modify i fun job => { job with phase := .done } }
  have hdone : weight o { s with
      running := s.running.erase i
      jobs := s.jobs.modify i fun job => { job with phase := .done } } + job.phase.weight o =
      weight o s + 0 + 0 := weight_change (s := { s with running := s.running.erase i }) hi _ []
  rw [hp, Phase.weight_returned] at hdone
  have hpump : ∀ s : State, weight o { s with stack := .pump :: s.stack } = weight o s + 1 := by
    intro s
    simp only [weight, List.map_cons, List.sum_cons, Frame.weight]
    omega
  rw [settles]
  split
  · omega
  · rw [hpump]
    omega

theorem weight_resumes {k : ℕ} {w w' : Waiter} (hk : s.waiters[k]? = some w)
    (hw : resume w = some w') :
    weight o { s with waiters := s.waiters.set k w' } < weight o s := by
  have hlt : w'.weight < w.weight := by
    rw [resume] at hw
    split at hw
    · rename_i hstatus
      obtain rfl := Option.some.inj hw
      simp [Waiter.weight, hstatus]
    · rename_i hstatus _
      obtain rfl := Option.some.inj hw
      simp [Waiter.weight, hstatus]
    · cases hw
  have hsum := Indexed.sum_map_modify Waiter.weight (f := fun _ => w') hk
  simp only [weight, List.set_eq_modify]
  omega

theorem weight_step {a : Action} (ha : a.Internal) {t : State} (h : Inv o s)
    (hstep : step o s a = some t) : weight o t < weight o s := by
  cases step_stepped hstep with
  | register _ _ => exact ha.elim
  | enqueue _ _ => exact ha.elim
  | drain _ => exact ha.elim
  | shutdown _ => exact ha.elim
  | pump hs => exact weight_pump h hs
  | shutdownLoop hs => exact weight_shutdownLoop h hs
  | @returns frame stack hs _ _ =>
    have hpos : 0 < frame.weight := by cases frame <;> simp [Frame.weight]
    simp only [weight, hs, List.map_cons, List.sum_cons]
    omega
  | @throws i attempt stack job hs hi hp =>
    refine Nat.lt_of_lt_of_le (weight_rejected (s := { s with stack := stack }) hi hp) ?_
    simp only [weight, hs, List.map_cons, List.sum_cons]
    omega
  | @fulfilled i attempt job hs hi hp =>
    have := weight_finish (o := o) hi job (if job.aborted then .cancelled else .completed)
      attempt
    rw [hp, Phase.weight_handling] at this
    rw [fulfilled]
    omega
  | rejected hs hi hp => exact weight_rejected hi hp
  | retried hs hi hp => exact weight_retried h hi hp
  | settles hs hi hp => exact weight_settles hi hp
  | resumes hs hk hw => exact weight_resumes hk hw

/-- A run without calls of the queue's users is no longer than what the queue weighs less. -/
theorem weight_run {as : List Action} (ha : ∀ a ∈ as, a.Internal) {t : State} (h : Inv o s)
    (hrun : run (step o) s as = some t) : weight o t + as.length ≤ weight o s := by
  induction as generalizing s with
  | nil =>
    rw [run_nil, Option.some.injEq] at hrun
    simp [hrun]
  | cons a as ih =>
    obtain ⟨u, hu, hrest⟩ := run_cons_some.mp hrun
    have hstep := weight_step (ha a (List.mem_cons_self ..)) h hu
    have := ih (fun b hb => ha b (List.mem_cons_of_mem _ hb)) (inv_step a u h hu) hrest
    rw [List.length_cons]
    omega

/-! ### Quiet states -/

variable (o) in
/-- The queue has nothing left to do. -/
def Quiet (s : State) : Prop := ∀ a : Action, a.Internal → step o s a = none

theorem Quiet.stack (h : Quiet o s) : s.stack = [] := by
  have hgo := h .goesOn trivial
  rcases hs : s.stack with _ | ⟨frame, stack⟩
  · rfl
  · cases frame <;> simp [step, hs] at hgo

/-- Where nothing is left to do, no `execute` goes on. -/
theorem Quiet.idle (h : Quiet o s) {i : ℕ} {job : Job} (hi : s.jobs[i]? = some job) :
    ¬ job.phase.Runs := by
  have hs := h.stack
  intro hruns
  rcases hp : job.phase with _ | attempt | attempt | _ | _
  · exact (hp ▸ hruns : Phase.Runs .waiting)
  · have := h (.handlerSettles i true) trivial
    simp [step, hs, hi, attempt?_eq_some.mpr hp] at this
  · have := h (.retries i) trivial
    simp [step, hs, hi, hp] at this
  · have := h (.finally i) trivial
    simp [step, hs, hi, hp] at this
  · exact (hp ▸ hruns : Phase.Runs .done)

/-- Where nothing is left to do, every job has settled. -/
theorem settled_of_quiet (h : Inv o s) (hq : Quiet o s) :
    ∀ job ∈ s.jobs, job.results.length = 1 := by
  have hs := hq.stack
  have hrunning : s.running = [] := by
    refine List.eq_nil_iff_forall_not_mem.mpr fun i hi => ?_
    have hlt : i < s.jobs.length := h.ctl.known i (.inr (.inl hi))
    have hjob : s.jobs[i]? = some s.jobs[i] := List.getElem?_eq_getElem hlt
    exact hq.idle hjob ((h.jobs i _ hjob).runs.mpr hi)
  have hqueue : s.queue = [] := by
    by_contra hne
    rcases h.ctl.pumped hne with hrun | hpump
    · exact hrun hrunning
    · simp [hs] at hpump
  intro job hmem
  obtain ⟨i, hi⟩ := List.mem_iff_getElem?.mp hmem
  have hok := h.jobs i job hi
  have hdone : job.phase = .done := by
    have hidle := hq.idle hi
    rcases hp : job.phase with _ | attempt | attempt | _ | _
    · have hwaits := hok.waits.mp hp
      simp [Waits, hqueue, (h.ctl.looped (by simp [hs])).1] at hwaits
    · exact absurd (hp ▸ trivial) hidle
    · exact absurd (hp ▸ trivial) hidle
    · exact absurd (hp ▸ trivial) hidle
    · rfl
  rw [hok.results, if_pos (hok.settled.mpr (.inr hdone))]

/-! ### Waiters -/

/-- `notifyDrain` has called the waiter, or `drain()` found nothing to wait for. -/
def Waiter.freed (w : Waiter) : Bool := w.status ≠ .waiting

/-- The promise that the caller of `drain()`, or of `shutdown()`, has is resolved. -/
def Waiter.resolved (w : Waiter) : Bool :=
  w.status = if w.ofShutdown then .shutDown else .drained

/-- What a waiter newly meets in `t` it meets while nothing is queued or running. -/
def WhenEmpty (p : Waiter → Bool) (s t : State) : Prop :=
  ∀ k < t.waiters.length, (t.waiters[k]?).any p = true → (s.waiters[k]?).any p = false →
    t.queue = [] ∧ t.running = []

instance (p : Waiter → Bool) (s t : State) : Decidable (WhenEmpty p s t) := by
  unfold WhenEmpty
  infer_instance

theorem WhenEmpty.of_waiters {p : Waiter → Bool} {s t : State} (h : t.waiters = s.waiters) :
    WhenEmpty p s t := by
  intro k _ ht hs
  rw [h, hs] at ht
  cases ht

theorem whenEmpty_drain (ofShutdown : Bool) (s : State) :
    WhenEmpty Waiter.freed s (drain ofShutdown s) := by
  intro k _ ht hs
  rcases hk : (drain ofShutdown s).waiters[k]? with _ | w
  · simp [hk] at ht
  · rw [hk] at ht
    rcases Indexed.getElem?_concat.mp hk with hold | ⟨-, rfl⟩
    · rw [hold] at hs
      exact absurd (hs.symm.trans ht) (by simp)
    · by_contra hnot
      have : ¬ (s.queue = [] ∧ s.running = []) := hnot
      simp [Waiter.freed, this] at ht

theorem whenEmpty_notifyDrain (s : State) : WhenEmpty Waiter.freed s (notifyDrain s) := by
  rw [notifyDrain]
  split
  · exact .of_waiters rfl
  · rename_i hempty
    intro k _ _ _
    exact ⟨not_not.mp (not_or.mp hempty).1, not_not.mp (not_or.mp hempty).2⟩

theorem beginAttempt_waiters (i : ℕ) (job : Job) (attempt : ℕ) (s : State) :
    (beginAttempt o i job attempt s).waiters = s.waiters := by
  rw [beginAttempt]
  split
  · dsimp only
    split <;> rfl
  · rfl

theorem rejected_waiters (i : ℕ) (job : Job) (attempt : ℕ) (s : State) :
    (rejected o i job attempt s).waiters = s.waiters := by
  rw [rejected]
  split
  · rfl
  · split <;> rfl

theorem whenEmpty_pump (s : State) : WhenEmpty Waiter.freed s (pump o s) := by
  have hleave := whenEmpty_notifyDrain { s with stack := s.stack.tail }
  rw [pump]
  split
  · split
    · dsimp only
      split
      · exact .of_waiters (beginAttempt_waiters ..)
      · exact .of_waiters rfl
    · exact hleave
  · exact hleave

/-- No step frees a waiter but where nothing is queued or running. -/
theorem whenEmpty_step {a : Action} {t : State} (h : step o s a = some t) :
    WhenEmpty Waiter.freed s t := by
  cases step_stepped h with
  | register type _ =>
    refine .of_waiters ?_
    rw [register]
    split
    · rfl
    · split <;> rfl
  | enqueue type _ =>
    refine .of_waiters ?_
    rw [enqueue]
    split
    · rfl
    · split
      · rfl
      · split <;> rfl
  | drain _ => exact whenEmpty_drain false s
  | shutdown _ =>
    rw [shutdown]
    split
    · exact whenEmpty_drain true s
    · exact .of_waiters rfl
  | pump _ => exact whenEmpty_pump s
  | shutdownLoop _ =>
    rw [shutdownLoop]
    split
    · exact .of_waiters rfl
    · exact .of_waiters rfl
    · exact whenEmpty_drain true { s with stack := s.stack.tail }
  | returns _ _ _ => exact .of_waiters rfl
  | throws _ _ _ => exact .of_waiters (rejected_waiters ..)
  | fulfilled _ _ _ => exact .of_waiters rfl
  | rejected _ _ _ => exact .of_waiters (rejected_waiters ..)
  | retried _ _ _ =>
    rw [retried]
    split
    · exact .of_waiters rfl
    · exact .of_waiters (beginAttempt_waiters ..)
  | @settles i _ _ _ _ =>
    have := whenEmpty_notifyDrain { s with
      running := s.running.erase i
      jobs := s.jobs.modify i fun job => { job with phase := .done } }
    rw [settles]
    split <;> exact this
  | @resumes k w w' _ hk hw =>
    -- only a waiter that was freed before is resumed
    have hfreed : w.freed = true := by
      rw [resume] at hw
      split at hw
      · rename_i hstatus
        simp [Waiter.freed, hstatus]
      · rename_i hstatus _
        simp [Waiter.freed, hstatus]
      · cases hw
    intro j _ ht hs
    rcases eq_or_ne k j with rfl | hkj
    · rw [hk, Option.any_some, hfreed] at hs
      cases hs
    · rw [List.getElem?_set_ne hkj, hs] at ht
      cases ht

/-! ### Safety -/

/-- The jobs whose handler has been called and has not settled. -/
def handlersRunning (s : State) : List ℕ :=
  (List.range s.jobs.length).filter fun i => (s.jobs[i]?).any (·.attempt?.isSome)

variable (o) in
/-- What is asked of the queue in every state. -/
structure Safe (s : State) : Prop where
  width : (handlersRunning s).length ≤ o.concurrency
  depth : s.queue.length ≤ o.maxQueue
  started : s.starts.Pairwise (· < ·)
  called : (firstCalls s.calls).Pairwise (· < ·)
  once : ∀ job ∈ s.jobs, job.results.length ≤ 1 ∧ ∀ r ∈ job.results, r.attempts ≤ o.maxAttempts
  ends : ∀ as t, (∀ a ∈ as, a.Internal) → run (step o) s as = some t → as.length ≤ weight o s
  settled : Quiet o s → ∀ job ∈ s.jobs, job.results.length = 1
  calls : ∀ c ∈ s.calls, c.closed = false ∧ c.attempt ≤ o.maxAttempts
  shutDown : ∀ w ∈ s.waiters, w.status = .shutDown → s.queue = [] ∧ s.running = []

theorem handlersRunning_le (h : Inv o s) : (handlersRunning s).length ≤ o.concurrency := by
  refine Nat.le_trans (List.Nodup.length_le_of_subset (List.nodup_range.filter _) ?_) h.ctl.width
  intro i hi
  have hany := (List.mem_filter.mp hi).2
  rcases hjob : s.jobs[i]? with _ | job
  · simp [hjob] at hany
  · rw [hjob, Option.any_some] at hany
    obtain ⟨attempt, hattempt⟩ := Option.isSome_iff_exists.mp hany
    refine (h.jobs i job hjob).runs.mp ?_
    rw [attempt?_eq_some.mp hattempt]
    trivial

theorem Inv.safe (h : Inv o s) : Safe o s where
  width := handlersRunning_le h
  depth := h.ctl.depth
  started := (List.pairwise_append.mp h.ctl.order).1
  called := (List.pairwise_append.mp h.ctl.order).1.sublist h.ctl.first
  once job hmem := by
    obtain ⟨i, hi⟩ := List.mem_iff_getElem?.mp hmem
    have hok := h.jobs i job hi
    refine ⟨?_, hok.resultAttempts⟩
    rw [hok.results]
    split <;> simp
  ends as t ha hrun := by
    have := weight_run ha h hrun
    omega
  settled hq := settled_of_quiet h hq
  calls := h.ctl.calls
  shutDown w hw hstatus := by
    obtain ⟨hclosed, hempty⟩ := h.ctl.shutdowns w hw (h.ctl.shutDown w hw hstatus)
    exact ⟨h.ctl.emptied hclosed, hempty (by simp [hstatus])⟩

/-- At most `concurrency` handlers run and at most `maxQueue` jobs wait; the jobs start in the order of
    `enqueue`; each has at most one result, of at most `maxAttempts` attempts, and it has one once the
    queue's own steps, of which there are only so many, have been taken; no handler is called once
    `shutdown()` has begun; the promise of `shutdown()` is resolved, and the waiters of `drain()` are
    called, only where nothing is queued or running. -/
theorem queue_safe (o : Options) (as : List Action) : Everywhere (step o) (Safe o) init as ∧
    Along (step o) (fun s a => ∀ t ∈ step o s a, WhenEmpty Waiter.freed s t) init as := by
  have hok : Along (step o) (fun _ _ => True) init as :=
    along_of_forall (fun _ _ => trivial) init as
  refine ⟨?_, along_of_forall (fun s a t ht => whenEmpty_step ht) init as⟩
  exact everywhere_of_along (fun s a t h _ ht => inv_step a t h ht) (fun s h => h.safe) as inv_init
    hok

/-- One job at a time, tried once. -/
def single : Options := ⟨1, 1, 1, by decide, by decide, by decide⟩

/-- The run of one job, up to `notifyDrain` calling the waiter of `drain()`; a second job is enqueued
    before the continuation of `drain()` is resumed. -/
def lateEnqueue : List Action :=
  [.register "embed", .enqueue "embed", .goesOn, .goesOn, .goesOn, .drain, .handlerSettles 0 true,
    .goesOn, .finally 0, .goesOn, .enqueue "embed", .goesOn, .goesOn, .goesOn, .resumes 0]

theorem drain_resolves_late : ¬ Along (step single)
    (fun s a => ∀ t ∈ step single s a, WhenEmpty Waiter.resolved s t) init lateEnqueue := by
  decide

end Remembra.Queue.JobQueue
