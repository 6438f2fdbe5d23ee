import Remembra.Lib.Indexed
import Remembra.Queue.JobQueue

/-! What holds of the job queue in every state: where each job is decides its phase, whether it has
    settled and whether it was aborted; the queue continues the order of the starts; nothing is left of
    the loops of `shutdown()` once its frame is gone; and a job that waits has a running one, or a call
    of `pump()`, to wait for. -/

namespace Remembra.Queue.JobQueue
open Transition

variable (o : Options)

/-- `execute(job)` has been called and its `finally` is still to come. -/
def Phase.Runs : Phase → Prop
  | .waiting | .done => False
  | .handling _ | .retrying _ | .returned => True

/-- The job of an attempt may be in. -/
def Phase.Bounded : Phase → Prop
  | .handling attempt => 0 < attempt ∧ attempt ≤ o.maxAttempts
  | .retrying attempt => 0 < attempt ∧ attempt < o.maxAttempts
  | _ => True

/-- The job is yet to be started, or yet to be cancelled by `shutdown()`. -/
def Waits (s : State) (i : ℕ) : Prop := i ∈ s.queue ∨ i ∈ s.cancelling

/-- `shutdown()` has aborted the job while it ran. -/
def Told (s : State) (i : ℕ) : Prop := s.closed = true ∧ i ∈ s.running ∧ i ∉ s.toAbort

/-- What holds of a job, by where it is. -/
structure JobOk (waits runs told : Prop) (job : Job) : Prop where
  waits : job.phase = .waiting ↔ waits
  runs : job.phase.Runs ↔ runs
  told : told → job.aborted = true
  bounded : job.phase.Bounded o
  settled : job.settled = true ↔ job.phase = .returned ∨ job.phase = .done
  results : job.results.length = if job.settled then 1 else 0
  attempts : job.attempts ≤ o.maxAttempts
  resultAttempts : ∀ r ∈ job.results, r.attempts ≤ o.maxAttempts

/-- What holds of a job whose `execute` goes on. -/
structure InExecute (s : State) (i : ℕ) (job : Job) : Prop where
  waits : ¬ Waits s i
  runs : i ∈ s.running
  told : Told s i → job.aborted = true
  settled : job.settled = false
  results : job.results = []

/-- The first calls of handlers, by job. -/
def firstCalls (calls : List Call) : List ℕ :=
  (calls.filter fun c => c.attempt = 1).map (·.job)

/-- What holds of the queue, but for the jobs. -/
structure Ctl (s : State) : Prop where
  known : ∀ i, Waits s i ∨ i ∈ s.running ∨ i ∈ s.starts → i < s.jobs.length
  order : (s.starts ++ s.queue).Pairwise (· < ·)
  running : s.running.Nodup
  cancelling : s.cancelling.Nodup
  width : s.running.length ≤ o.concurrency
  depth : s.queue.length ≤ o.maxQueue
  emptied : s.closed = true → s.queue = []
  loops : .shutdown ∈ s.stack → s.closed = true
  looped : .shutdown ∉ s.stack → s.cancelling = [] ∧ s.toAbort = []
  pumped : s.queue ≠ [] → s.running ≠ [] ∨ .pump ∈ s.stack
  shutdowns : ∀ w ∈ s.waiters, w.ofShutdown = true →
    s.closed = true ∧ (w.status ≠ .waiting → s.running = [])
  shutDown : ∀ w ∈ s.waiters, w.status = .shutDown → w.ofShutdown = true
  calls : ∀ c ∈ s.calls, c.closed = false ∧ c.attempt ≤ o.maxAttempts
  first : (firstCalls s.calls).Sublist s.starts

structure Inv (s : State) : Prop where
  jobs : ∀ i job, s.jobs[i]? = some job → JobOk o (Waits s i) (i ∈ s.running) (Told s i) job
  ctl : Ctl o s

variable {o} {s : State}

theorem JobOk.congr {waits runs told waits' runs' told' : Prop} {job : Job}
    (h : JobOk o waits runs told job) (hw : waits' ↔ waits) (hr : runs' ↔ runs)
    (ht : told' → told) : JobOk o waits' runs' told' job :=
  { h with waits := h.waits.trans hw.symm, runs := h.runs.trans hr.symm, told := h.told ∘ ht }

/-- A job has no result before its `execute` ends or it is cancelled. -/
theorem JobOk.unsettled {waits runs told : Prop} {job : Job} (h : JobOk o waits runs told job)
    (hreturned : job.phase ≠ .returned) (hdone : job.phase ≠ .done) :
    job.settled = false ∧ job.results = [] := by
  have hsettled : job.settled = false := by
    rw [← Bool.not_eq_true, h.settled]
    exact not_or.mpr ⟨hreturned, hdone⟩
  refine ⟨hsettled, List.length_eq_zero_iff.mp ?_⟩
  rw [h.results, hsettled]
  rfl

/-- A job that waits does not run, and has no result. -/
theorem JobOk.of_waiting {waits runs told : Prop} {job : Job} (h : JobOk o waits runs told job)
    (hw : waits) : job.phase = .waiting ∧ ¬ runs ∧ job.settled = false ∧ job.results = [] := by
  have hp := h.waits.mpr hw
  refine ⟨hp, fun hr => ?_, h.unsettled (by simp [hp]) (by simp [hp])⟩
  have := h.runs.mpr hr
  rwa [hp] at this

theorem inv_init : Inv o init where
  jobs i job h := by simp [init] at h
  ctl := by
    constructor <;> simp [init, Waits, firstCalls]

/-- Frames of user code, and of `pump()`, on top of the stack. -/
theorem Ctl.push (h : Ctl o s) (pre : List Frame) (hpre : .shutdown ∉ pre) :
    Ctl o { s with stack := pre ++ s.stack } :=
  { h with
    loops := fun hm => h.loops ((List.mem_append.mp hm).resolve_left hpre)
    looped := fun hm => h.looped fun hs => hm (List.mem_append_right _ hs)
    pumped := fun hq => (h.pumped hq).imp_right (List.mem_append_right _) }

/-- A frame that is none of the queue's own is left. -/
theorem Ctl.pop (h : Ctl o s) {frame : Frame} {stack : List Frame}
    (hs : s.stack = frame :: stack) (hpump : frame ≠ .pump) (hshutdown : frame ≠ .shutdown) :
    Ctl o { s with stack := stack } :=
  { h with
    loops := fun hm => h.loops (hs ▸ List.mem_cons_of_mem _ hm)
    looped := fun hm => h.looped fun hx => hm <| by
      rw [hs] at hx
      exact (List.mem_cons.mp hx).resolve_left hshutdown.symm
    pumped := fun hq => (h.pumped hq).imp_right fun hx => by
      rw [hs] at hx
      exact (List.mem_cons.mp hx).resolve_left hpump.symm }

/-- A job is changed in place. -/
theorem Ctl.modify (h : Ctl o s) (i : ℕ) (f : Job → Job) :
    Ctl o { s with jobs := s.jobs.modify i f } :=
  { h with known := fun j hj => by simpa using h.known j hj }

theorem callbacks_user {state : Outcome} {job : Job} : .shutdown ∉ job.callbacks state := by
  rw [Job.callbacks]
  split
  · simp
  · split <;> simp

/-! ### Steps of `execute` -/

/-- The jobs other than `i` are where the queue has them. -/
def Others (o : Options) (s : State) (i : ℕ) : Prop :=
  ∀ j job, j ≠ i → s.jobs[j]? = some job → JobOk o (Waits s j) (j ∈ s.running) (Told s j) job

theorem Inv.others (h : Inv o s) (i : ℕ) : Others o s i := fun j job _ hj => h.jobs j job hj

theorem JobOk.inExecute {i : ℕ} {job : Job}
    (h : JobOk o (Waits s i) (i ∈ s.running) (Told s i) job) (hruns : job.phase.Runs)
    (hphase : job.phase ≠ .returned) : InExecute s i job := by
  have hdone : job.phase ≠ .done := fun hd => by rw [hd] at hruns; exact hruns
  obtain ⟨hsettled, hresults⟩ := h.unsettled hphase hdone
  exact ⟨fun hw => (h.of_waiting hw).2.1 (h.runs.mp hruns), h.runs.mp hruns, h.told, hsettled,
    hresults⟩

/-- A phase of `execute` other than its end. -/
theorem InExecute.jobOk {i : ℕ} {job : Job} (h : InExecute s i job) {attempts : ℕ} {phase : Phase}
    (hle : attempts ≤ o.maxAttempts) (hruns : phase.Runs) (hphase : phase ≠ .returned)
    (hbounded : phase.Bounded o) :
    JobOk o (Waits s i) (i ∈ s.running) (Told s i)
      { job with attempts := attempts, phase := phase } where
  waits := by
    cases phase <;> simp_all [Phase.Runs, h.waits]
  runs := iff_of_true hruns h.runs
  told := h.told
  bounded := hbounded
  settled := by
    cases phase <;> simp_all [Phase.Runs, h.settled]
  results := by simp [h.results, h.settled]
  attempts := hle
  resultAttempts r hr := by simp [h.results] at hr

theorem inv_finish (hc : Ctl o s) {i : ℕ} (ho : Others o s i) {job job' : Job}
    (hi : s.jobs[i]? = some job') (h : InExecute s i job') {state : Outcome} {attempts : ℕ}
    (hle : attempts ≤ o.maxAttempts) : Inv o (finish i job state attempts s) where
  jobs := by
    refine Indexed.forall_modify hi ho ?_
    rw [Job.settle, if_neg (by simp [h.settled])]
    exact {
      waits := iff_of_false (by simp) h.waits
      runs := iff_of_true trivial h.runs
      told := h.told
      bounded := trivial
      settled := by simp
      results := by simp [h.results]
      attempts := hle
      resultAttempts := by simp [h.results, hle] }
  ctl := (hc.push _ callbacks_user).modify i _

theorem inv_beginAttempt (hc : Ctl o s) {i : ℕ} (ho : Others o s i) {job : Job}
    (hi : s.jobs[i]? = some job) (h : InExecute s i job) {attempt : ℕ} (hpos : 0 < attempt)
    (hle : attempt ≤ o.maxAttempts) (hopen : job.aborted = false → s.closed = false)
    (hfirst : (firstCalls s.calls ++ if attempt = 1 then [i] else []).Sublist s.starts) :
    Inv o (beginAttempt o i job attempt s) := by
  rw [beginAttempt, if_pos hle]
  have hi' : (s.jobs.modify i fun job => { job with attempts := attempt })[i]? =
      some { job with attempts := attempt } := by
    simp [hi]
  have ho' : Others o { s with jobs := s.jobs.modify i fun job => { job with attempts := attempt } }
      i := by
    intro j b hj hb
    rcases Indexed.getElem?_modify_some hb with ⟨-, hsame⟩ | ⟨hji, -⟩
    · exact ho j b hj hsame
    · exact absurd hji hj
  have hc' := hc.modify i fun job => { job with attempts := attempt }
  have hin : InExecute { s with
      jobs := s.jobs.modify i fun job => { job with attempts := attempt } } i
      { job with attempts := attempt } :=
    ⟨h.waits, h.runs, h.told, h.settled, h.results⟩
  cases haborted : job.aborted with
  | true =>
    simp only [if_true]
    exact inv_finish hc' ho' hi' hin hle
  | false =>
    simp only [Bool.false_eq_true, if_false]
    have hclosed := hopen haborted
    have hpush := (hc'.push [.handler i] (by simp)).modify i fun job =>
      { job with phase := .handling attempt }
    refine ⟨Indexed.forall_modify hi' ho' ?_, { hpush with calls := ?_, first := ?_ }⟩
    · exact hin.jobOk hle trivial (by simp) ⟨hpos, hle⟩
    · intro c hcall
      rcases List.mem_append.mp hcall with hcall | hcall
      · exact hc.calls c hcall
      · rw [List.mem_singleton.mp hcall]
        exact ⟨hclosed, hle⟩
    · by_cases hone : attempt = 1 <;> simpa [firstCalls, hone] using hfirst

theorem inv_rejected (hc : Ctl o s) {i : ℕ} (ho : Others o s i) {job : Job}
    (hi : s.jobs[i]? = some job) (h : InExecute s i job) {attempt : ℕ} (hpos : 0 < attempt)
    (hle : attempt ≤ o.maxAttempts) (hattempts : job.attempts ≤ o.maxAttempts) :
    Inv o (rejected o i job attempt s) := by
  rw [rejected]
  split
  · exact inv_finish hc ho hi h hle
  · split
    · exact inv_finish hc ho hi h hle
    · rename_i hlt
      refine ⟨Indexed.forall_modify hi ho ?_, hc.modify i _⟩
      exact h.jobOk hattempts trivial (by simp) ⟨hpos, Nat.lt_of_not_le hlt⟩

/-! ### Steps of the queue -/

theorem Ctl.withWaiters (h : Ctl o s) {waiters : List Waiter}
    (hw : ∀ w ∈ waiters, (w.ofShutdown = true →
      s.closed = true ∧ (w.status ≠ .waiting → s.running = [])) ∧
      (w.status = .shutDown → w.ofShutdown = true)) : Ctl o { s with waiters := waiters } :=
  { h with
    shutdowns := fun w hmem => (hw w hmem).1
    shutDown := fun w hmem => (hw w hmem).2 }

/-- `notifyDrain` changes nothing but waiters, and those only where nothing runs. -/
theorem notifyDrain_eq (s : State) (h : ∀ w ∈ s.waiters, (w.ofShutdown = true →
      s.closed = true ∧ (w.status ≠ .waiting → s.running = [])) ∧
      (w.status = .shutDown → w.ofShutdown = true)) :
    ∃ waiters, notifyDrain s = { s with waiters := waiters } ∧ ∀ w ∈ waiters,
      (w.ofShutdown = true → s.closed = true ∧ (w.status ≠ .waiting → s.running = [])) ∧
      (w.status = .shutDown → w.ofShutdown = true) := by
  rw [notifyDrain]
  split
  · exact ⟨s.waiters, rfl, h⟩
  · rename_i hempty
    have hrunning : s.running = [] := not_not.mp (not_or.mp hempty).2
    refine ⟨_, rfl, fun w hw => ?_⟩
    obtain ⟨w', hw', rfl⟩ := List.mem_map.mp hw
    split
    · exact ⟨fun hof => ⟨((h w' hw').1 hof).1, fun _ => hrunning⟩, by simp⟩
    · exact h w' hw'

theorem Ctl.waiters (h : Ctl o s) : ∀ w ∈ s.waiters, (w.ofShutdown = true →
      s.closed = true ∧ (w.status ≠ .waiting → s.running = [])) ∧
      (w.status = .shutDown → w.ofShutdown = true) :=
  fun w hw => ⟨h.shutdowns w hw, h.shutDown w hw⟩

theorem Ctl.notifyDrain (h : Ctl o s) : Ctl o (notifyDrain s) := by
  obtain ⟨waiters, heq, hw⟩ := notifyDrain_eq s h.waiters
  rw [heq]
  exact h.withWaiters hw

theorem Inv.notifyDrain (h : Inv o s) : Inv o (notifyDrain s) := by
  refine ⟨?_, h.ctl.notifyDrain⟩
  obtain ⟨waiters, heq, -⟩ := notifyDrain_eq s h.ctl.waiters
  rw [heq]
  exact h.jobs

theorem Inv.drain (h : Inv o s) {ofShutdown : Bool} (hclosed : ofShutdown = true → s.closed = true) :
    Inv o (drain ofShutdown s) := by
  refine ⟨h.jobs, h.ctl.withWaiters fun w hw => ?_⟩
  rcases List.mem_append.mp hw with hw | hw
  · exact h.ctl.waiters w hw
  · rw [List.mem_singleton.mp hw]
    split
    · rename_i hempty
      exact ⟨fun hof => ⟨hclosed hof, fun _ => hempty.2⟩, by simp⟩
    · exact ⟨fun hof => ⟨hclosed hof, by simp⟩, by simp⟩

theorem inv_register (h : Inv o s) (type : String) : Inv o (orSame s (register type s)) := by
  rw [register]
  split
  · exact h
  · split
    · exact h
    · exact ⟨h.jobs, { h.ctl with }⟩

theorem inv_enqueue (h : Inv o s) (type : String) : Inv o (orSame s (enqueue o type s)) := by
  rw [enqueue]
  split
  · exact h
  rename_i hclosed
  split
  · exact h
  split
  · exact h
  rename_i hroom
  rw [orSame]
  have hc := h.ctl
  have hnew : ∀ i, Waits s i ∨ i ∈ s.running ∨ i ∈ s.starts → i ≠ s.jobs.length :=
    fun i hi => Nat.ne_of_lt (hc.known i hi)
  refine ⟨fun i job hi => ?_, { hc with
    known := fun i hi => ?_, order := ?_, depth := ?_, emptied := fun hx => absurd hx hclosed,
    loops := fun hm => hc.loops (by simpa using hm), looped := fun hm => hc.looped (by simpa using hm),
    pumped := fun _ => .inr (List.mem_cons_self ..) }⟩
  · rcases Indexed.getElem?_concat.mp hi with hi | ⟨rfl, rfl⟩
    · have hlt : i ≠ s.jobs.length := Nat.ne_of_lt (List.getElem?_eq_some_iff.mp hi).1
      exact (h.jobs i job hi).congr (by simp [Waits, hlt]) Iff.rfl id
    · refine ⟨iff_of_true rfl ?_, iff_of_false id ?_, fun ht => ?_, trivial, by simp, rfl,
        Nat.zero_le _, by simp⟩
      · exact .inl (by simp)
      · exact fun hr => hnew _ (.inr (.inl hr)) rfl
      · exact absurd ht.1 hclosed
  · have : i = s.jobs.length ∨ i < s.jobs.length := by
      rcases hi with (hq | hcan) | hr
      · rcases List.mem_append.mp hq with hq | hq
        · exact .inr (hc.known i (.inl (.inl hq)))
        · exact .inl (List.mem_singleton.mp hq)
      · exact .inr (hc.known i (.inl (.inr hcan)))
      · exact .inr (hc.known i (.inr hr))
    simp only [List.length_append, List.length_singleton]
    omega
  · rw [← List.append_assoc, List.pairwise_append]
    refine ⟨hc.order, List.pairwise_singleton _ _, fun i hi j hj => ?_⟩
    rw [List.mem_singleton.mp hj]
    rcases List.mem_append.mp hi with hi | hi
    · exact hc.known i (.inr (.inr hi))
    · exact hc.known i (.inl (.inl hi))
  · simp only [List.length_append, List.length_singleton]
    omega

theorem inv_shutdown (h : Inv o s) : Inv o (shutdown s) := by
  rw [shutdown]
  split
  · rename_i hclosed
    exact h.drain fun _ => hclosed
  · rename_i hclosed
    have hc := h.ctl
    obtain ⟨hcancelling, htoAbort⟩ := hc.looped fun hm => hclosed (hc.loops hm)
    have hwaits : ∀ i, (i ∈ ([] : List ℕ) ∨ i ∈ s.queue) ↔ Waits s i := by
      simp [Waits, hcancelling]
    refine ⟨fun i job hi => ?_, { hc with
      known := fun i hi => hc.known i (hi.imp_left (hwaits i).mp)
      order := hc.order.sublist (List.Sublist.append_left (List.nil_sublist _) _)
      cancelling := (List.pairwise_append.mp hc.order).2.1.imp Nat.ne_of_lt
      depth := Nat.zero_le _
      emptied := fun _ => rfl
      loops := fun _ => rfl
      looped := fun hm => absurd (List.mem_cons_self ..) hm
      pumped := fun hq => absurd rfl hq
      shutdowns := fun w hw hof => absurd (hc.shutdowns w hw hof).1 hclosed }⟩
    exact (h.jobs i job hi).congr (hwaits i) Iff.rfl fun ht => absurd ht.2.1 ht.2.2

/-- The first job of the queue is taken and started. -/
theorem inv_start (h : Inv o s) {i : ℕ} {queue : List ℕ} (hq : s.queue = i :: queue)
    (hopen : s.closed = false) (hroom : s.running.length < o.concurrency) {job : Job}
    (hi : s.jobs[i]? = some job) :
    Inv o (beginAttempt o i job 1 { s with
      queue := queue, running := s.running ++ [i], starts := s.starts ++ [i] }) := by
  have hc := h.ctl
  have hmem : i ∈ s.queue := hq ▸ List.mem_cons_self ..
  have horder : (s.starts ++ i :: queue).Pairwise (· < ·) := hq ▸ hc.order
  have hfresh : i ∉ queue := fun hm =>
    Nat.lt_irrefl i ((List.pairwise_cons.mp (List.pairwise_append.mp horder).2.1).1 i hm)
  obtain ⟨-, hidle, hsettled, hresults⟩ := (h.jobs i job hi).of_waiting (.inl hmem)
  obtain ⟨hcancelling, -⟩ := hc.looped fun hm => by simp [hc.loops hm] at hopen
  have hctl : Ctl o { s with
      queue := queue, running := s.running ++ [i], starts := s.starts ++ [i] } :=
    { hc with
      known := fun j hj => by
        have : j = i ∨ Waits s j ∨ j ∈ s.running ∨ j ∈ s.starts := by
          simp only [Waits, List.mem_append, List.mem_singleton] at hj ⊢
          rw [hq]
          simp only [List.mem_cons]
          tauto
        rcases this with rfl | hj
        · exact hc.known j (.inl (.inl hmem))
        · exact hc.known j hj
      order := by simpa using horder
      running := List.nodup_append.mpr ⟨hc.running, by simp, by
        rintro a ha b hb rfl
        exact hidle (List.mem_singleton.mp hb ▸ ha)⟩
      width := by simpa using Nat.succ_le_of_lt hroom
      depth := Nat.le_of_succ_le (by simpa [hq] using hc.depth)
      emptied := fun hx => by simp [hopen] at hx
      pumped := fun _ => .inl (by simp)
      shutdowns := fun w hw hof => by simpa [hopen] using (hc.shutdowns w hw hof).1
      first := hc.first.trans (List.sublist_append_left _ _) }
  refine inv_beginAttempt hctl (fun j b hj hb => ?_) hi ?_ Nat.one_pos o.maxAttempts_pos
    (fun _ => hopen) (by simpa using hc.first.append_right [i])
  · refine (h.jobs j b hb).congr ?_ (by simp [hj]) fun ht => ?_
    · simp [Waits, hq, hj]
    · exact absurd ht.1 (by simp [hopen])
  · refine ⟨?_, by simp, fun ht => absurd ht.1 (by simp [hopen]), hsettled, hresults⟩
    simp [Waits, hcancelling, hfresh]

theorem inv_pump (h : Inv o s) {stack : List Frame} (hs : s.stack = .pump :: stack) :
    Inv o (pump o s) := by
  have hc := h.ctl
  -- the loop is left with an empty queue, a closed one, or no room
  have hleave : (s.queue ≠ [] → s.running ≠ []) →
      Inv o (notifyDrain { s with stack := s.stack.tail }) := by
    intro hbusy
    refine Inv.notifyDrain ⟨h.jobs, { hc with
      loops := fun hm => hc.loops (List.mem_of_mem_tail hm)
      looped := fun hm => hc.looped fun hx => hm ?_
      pumped := fun hq => .inl (hbusy hq) }⟩
    rw [hs] at hx
    simpa [hs] using hx
  rw [pump]
  split
  · rename_i i queue hq
    split
    · rename_i hgo
      have hlt : i < s.jobs.length := hc.known i (.inl (.inl (hq ▸ List.mem_cons_self ..)))
      have hi : s.jobs[i]? = some s.jobs[i] := List.getElem?_eq_getElem hlt
      simp only [hi]
      exact inv_start h hq hgo.1 hgo.2 hi
    · rename_i hstop
      refine hleave fun hne hnil => hstop ⟨?_, ?_⟩
      · exact Bool.eq_false_iff.mpr fun hx => hne (hc.emptied hx)
      · rw [hnil]
        exact o.concurrency_pos
  · rename_i hq
    exact hleave fun hne => absurd hq hne

/-- `shutdown()` cancels the next job that has not been started. -/
theorem inv_cancel (h : Inv o s) {stack : List Frame} (hs : s.stack = .shutdown :: stack) {i : ℕ}
    {cancelling : List ℕ} (hi : s.cancelling = i :: cancelling) :
    Inv o (cancelQueued i cancelling s) := by
  have hc := h.ctl
  have hqueue : s.queue = [] := hc.emptied (hc.loops (hs ▸ List.mem_cons_self ..))
  have hwaits : Waits s i := .inr (hi ▸ List.mem_cons_self ..)
  have hlt : i < s.jobs.length := hc.known i (.inl hwaits)
  have hnodup := List.nodup_cons.mp (hi ▸ hc.cancelling)
  have hjob : s.jobs[i]? = some s.jobs[i] := List.getElem?_eq_getElem hlt
  have hok := h.jobs i _ hjob
  obtain ⟨-, hidle, hsettled, hresults⟩ := hok.of_waiting hwaits
  rw [cancelQueued]
  refine ⟨Indexed.forall_modify hjob (fun j b hj hb => ?_) ?_, ?_⟩
  · exact (h.jobs j b hb).congr (by simp [Waits, hi, hj]) Iff.rfl id
  · rw [Job.settle, if_neg (by simp [hsettled])]
    exact {
      waits := iff_of_false (by simp) (by simp [Waits, hqueue, hnodup.1])
      runs := iff_of_false id hidle
      told := fun _ => rfl
      bounded := trivial
      settled := by simp
      results := by simp [hresults]
      attempts := hok.attempts
      resultAttempts := by simp [hresults, hok.attempts] }
  · have hpre : Frame.shutdown ∉ (s.jobs[i]?).elim [] (·.callbacks .cancelled) := by
      rw [hjob]
      exact callbacks_user
    have hpush := (hc.push _ hpre).modify i fun job =>
      { ({ job with aborted := true } : Job).settle .cancelled job.attempts with phase := .done }
    exact { hpush with
      known := fun j hj => hpush.known j (hj.imp_left (Or.imp_right fun hm => by
        rw [hi]
        exact List.mem_cons_of_mem _ hm))
      cancelling := hnodup.2
      looped := fun hm => absurd (by simp [hs]) hm }

/-- `shutdown()` aborts the next running job. -/
theorem inv_abort (h : Inv o s) {stack : List Frame} (hs : s.stack = .shutdown :: stack) {i : ℕ}
    {toAbort : List ℕ} (hi : s.toAbort = i :: toAbort) : Inv o (abortRunning i toAbort s) := by
  have hpush := (h.ctl.push [.user] (by simp)).modify i fun job =>
    { job with aborted := true }
  rw [abortRunning]
  refine ⟨fun j b hb => ?_, { hpush with looped := fun hm => absurd (by simp [hs]) hm }⟩
  rcases Indexed.getElem?_modify_some hb with ⟨hj, hb⟩ | ⟨rfl, b', hb', rfl⟩
  · refine (h.jobs j b hb).congr Iff.rfl Iff.rfl fun ht => ⟨ht.1, ht.2.1, ?_⟩
    rw [hi, List.mem_cons]
    exact not_or.mpr ⟨hj, ht.2.2⟩
  · exact { h.jobs j b' hb' with told := fun _ => rfl }

theorem inv_shutdownLoop (h : Inv o s) {stack : List Frame} (hs : s.stack = .shutdown :: stack) :
    Inv o (shutdownLoop s) := by
  rw [shutdownLoop]
  split
  · rename_i hi
    exact inv_cancel h hs hi
  · rename_i hi
    exact inv_abort h hs hi
  · rename_i hcancelling htoAbort
    have hc := h.ctl
    have hclosed := hc.loops (hs ▸ List.mem_cons_self ..)
    refine Inv.drain (s := { s with stack := s.stack.tail }) ⟨h.jobs, { hc with
      loops := fun _ => hclosed
      looped := fun _ => ⟨hcancelling, htoAbort⟩
      pumped := fun hq => absurd (hc.emptied hclosed) hq }⟩ fun _ => hclosed

/-- The `finally` of a job that has returned. -/
theorem inv_settles (h : Inv o s) (hs : s.stack = []) {i : ℕ} {job : Job}
    (hi : s.jobs[i]? = some job) (hphase : job.phase = .returned) : Inv o (settles i s) := by
  have hc := h.ctl
  have hok := h.jobs i job hi
  have hnot : i ∉ s.running.erase i := fun hm => ((List.Nodup.mem_erase_iff hc.running).mp hm).1 rfl
  have hsub : ∀ j, j ∈ s.running.erase i → j ∈ s.running := fun j => List.mem_of_mem_erase
  obtain ⟨waiters, heq, hw⟩ := notifyDrain_eq { s with
    running := s.running.erase i
    jobs := s.jobs.modify i fun job => { job with phase := .done } } fun w hmem => by
      refine (hc.waiters w hmem).imp_left fun hx hof => (hx hof).imp_right fun hempty hne => ?_
      simp [hempty hne]
  have hjobs : ∀ j b, (s.jobs.modify i fun job => { job with phase := .done })[j]? = some b →
      JobOk o (Waits s j) (j ∈ s.running.erase i)
        (s.closed = true ∧ j ∈ s.running.erase i ∧ j ∉ s.toAbort) b := by
    refine Indexed.forall_modify hi (fun j b hj hb => ?_) ?_
    · refine (h.jobs j b hb).congr Iff.rfl ?_ fun ht => ⟨ht.1, hsub j ht.2.1, ht.2.2⟩
      simp [List.Nodup.mem_erase_iff hc.running, hj]
    · exact { hok with
        waits := iff_of_false (by simp) fun hx => by simp [hok.waits.mpr hx] at hphase
        runs := iff_of_false id hnot
        told := fun ht => absurd ht.2.1 hnot
        bounded := trivial
        settled := by simpa [hphase] using hok.settled }
  have hctl : ∀ stack : List Frame, Frame.shutdown ∉ stack →
      (s.closed = true ∨ .pump ∈ stack) → Ctl o { s with
        running := s.running.erase i
        jobs := s.jobs.modify i fun job => { job with phase := .done }
        waiters := waiters
        stack := stack } := by
    intro stack hstack hpump
    exact { hc with
      known := fun j hj => by simpa using hc.known j (hj.imp_right (Or.imp_left (hsub j)))
      running := hc.running.erase i
      width := Nat.le_trans List.length_erase_le hc.width
      loops := fun hm => absurd hm hstack
      looped := fun _ => hc.looped (by simp [hs])
      pumped := fun hq => hpump.imp (fun hx => absurd (hc.emptied hx) hq) id
      shutdowns := fun w hmem => (hw w hmem).1
      shutDown := fun w hmem => (hw w hmem).2 }
  rw [settles, heq]
  split
  · rename_i hclosed
    exact ⟨hjobs, hctl s.stack (by simp [hs]) (.inl hclosed)⟩
  · exact ⟨hjobs, hctl (.pump :: s.stack) (by simp [hs]) (.inr (List.mem_cons_self ..))⟩

theorem inv_resumes (h : Inv o s) {k : ℕ} {w w' : Waiter} (hk : s.waiters[k]? = some w)
    (hw : resume w = some w') : Inv o { s with waiters := s.waiters.set k w' } := by
  have hc := h.ctl
  have hmem := List.mem_of_getElem? hk
  refine ⟨h.jobs, hc.withWaiters fun v hv => ?_⟩
  rcases List.mem_or_eq_of_mem_set hv with hv | rfl
  · exact hc.waiters v hv
  · rw [resume] at hw
    split at hw
    · rename_i hstatus
      obtain rfl := Option.some.inj hw
      refine ⟨fun hof => (hc.shutdowns w hmem hof).imp_right fun hempty _ => hempty ?_, by simp⟩
      simp [hstatus]
    · rename_i hstatus hof
      obtain rfl := Option.some.inj hw
      refine ⟨fun _ => (hc.shutdowns w hmem hof).imp_right fun hempty _ => hempty ?_, fun _ => hof⟩
      simp [hstatus]
    · cases hw

/-! ### Runs -/

theorem attempt?_eq_some {job : Job} {attempt : ℕ} :
    job.attempt? = some attempt ↔ job.phase = .handling attempt := by
  rw [Job.attempt?]
  split
  · rename_i h
    simp [h]
  · rename_i h
    exact iff_of_false (by simp) (h attempt)

/-- What each step can do, and where it is enabled. -/
inductive Stepped (o : Options) (s : State) : Action → State → Prop
  | register (type : String) (h : MayCall s) :
      Stepped o s (.register type) (orSame s (register type s))
  | enqueue (type : String) (h : MayCall s) :
      Stepped o s (.enqueue type) (orSame s (enqueue o type s))
  | drain (h : MayCall s) : Stepped o s .drain (drain false s)
  | shutdown (h : MayCall s) : Stepped o s .shutdown (shutdown s)
  | pump {stack : List Frame} (hs : s.stack = .pump :: stack) : Stepped o s .goesOn (pump o s)
  | shutdownLoop {stack : List Frame} (hs : s.stack = .shutdown :: stack) :
      Stepped o s .goesOn (shutdownLoop s)
  | returns {frame : Frame} {stack : List Frame} (hs : s.stack = frame :: stack)
      (hpump : frame ≠ .pump) (hshutdown : frame ≠ .shutdown) :
      Stepped o s .goesOn { s with stack := stack }
  | throws {i attempt : ℕ} {stack : List Frame} {job : Job} (hs : s.stack = .handler i :: stack)
      (hi : s.jobs[i]? = some job) (hp : job.phase = .handling attempt) :
      Stepped o s .throws (rejected o i job attempt { s with stack := stack })
  | fulfilled {i attempt : ℕ} {job : Job} (hs : s.stack = []) (hi : s.jobs[i]? = some job)
      (hp : job.phase = .handling attempt) :
      Stepped o s (.handlerSettles i true) (fulfilled i job attempt s)
  | rejected {i attempt : ℕ} {job : Job} (hs : s.stack = []) (hi : s.jobs[i]? = some job)
      (hp : job.phase = .handling attempt) :
      Stepped o s (.handlerSettles i false) (rejected o i job attempt s)
  | retried {i attempt : ℕ} {job : Job} (hs : s.stack = []) (hi : s.jobs[i]? = some job)
      (hp : job.phase = .retrying attempt) :
      Stepped o s (.retries i) (retried o i job attempt s)
  | settles {i : ℕ} {job : Job} (hs : s.stack = []) (hi : s.jobs[i]? = some job)
      (hp : job.phase = .returned) : Stepped o s (.finally i) (settles i s)
  | resumes {k : ℕ} {w w' : Waiter} (hs : s.stack = []) (hk : s.waiters[k]? = some w)
      (hw : resume w = some w') :
      Stepped o s (.resumes k) { s with waiters := s.waiters.set k w' }

theorem step_stepped {a : Action} {t : State} (h : step o s a = some t) : Stepped o s a t := by
  cases a with
  | register type =>
    obtain ⟨hmay, ⟨⟩⟩ := Option.ite_none_right_eq_some.mp h
    exact .register type hmay
  | enqueue type =>
    obtain ⟨hmay, ⟨⟩⟩ := Option.ite_none_right_eq_some.mp h
    exact .enqueue type hmay
  | drain =>
    obtain ⟨hmay, ⟨⟩⟩ := Option.ite_none_right_eq_some.mp h
    exact .drain hmay
  | shutdown =>
    obtain ⟨hmay, ⟨⟩⟩ := Option.ite_none_right_eq_some.mp h
    exact .shutdown hmay
  | goesOn =>
    simp only [step] at h
    split at h
    · cases h
    · rename_i hs
      exact Option.some.inj h ▸ .pump hs
    · rename_i hs
      exact Option.some.inj h ▸ .shutdownLoop hs
    · rename_i hs
      exact Option.some.inj h ▸ .returns hs (by simp) (by simp)
    · rename_i hs
      exact Option.some.inj h ▸ .returns hs (by simp) (by simp)
  | throws =>
    simp only [step] at h
    split at h
    · rename_i hs
      obtain ⟨job, hi, h⟩ := Option.bind_eq_some_iff.mp h
      obtain ⟨attempt, hp, rfl⟩ := Option.map_eq_some_iff.mp h
      exact .throws hs hi (attempt?_eq_some.mp hp)
    · cases h
  | handlerSettles i ok =>
    obtain ⟨hs, h⟩ := Option.ite_none_right_eq_some.mp h
    obtain ⟨job, hi, h⟩ := Option.bind_eq_some_iff.mp h
    obtain ⟨attempt, hp, rfl⟩ := Option.map_eq_some_iff.mp h
    cases ok with
    | true => exact .fulfilled hs hi (attempt?_eq_some.mp hp)
    | false => exact .rejected hs hi (attempt?_eq_some.mp hp)
  | retries i =>
    obtain ⟨hs, h⟩ := Option.ite_none_right_eq_some.mp h
    obtain ⟨job, hi, h⟩ := Option.bind_eq_some_iff.mp h
    split at h
    · rename_i hp
      exact Option.some.inj h ▸ .retried hs hi hp
    · cases h
  | «finally» i =>
    obtain ⟨⟨hs, hp⟩, ⟨⟩⟩ := Option.ite_none_right_eq_some.mp h
    rcases hi : s.jobs[i]? with _ | job
    · simp [hi] at hp
    · exact .settles hs hi (by simpa [hi] using hp)
  | resumes k =>
    obtain ⟨hs, h⟩ := Option.ite_none_right_eq_some.mp h
    obtain ⟨w, hk, h⟩ := Option.bind_eq_some_iff.mp h
    obtain ⟨w', hw, rfl⟩ := Option.map_eq_some_iff.mp h
    exact .resumes hs hk hw

theorem Inv.inExecute (h : Inv o s) {i attempt : ℕ} {job : Job} (hi : s.jobs[i]? = some job)
    (hp : job.phase = .handling attempt ∨ job.phase = .retrying attempt) : InExecute s i job := by
  refine (h.jobs i job hi).inExecute ?_ ?_
  · rcases hp with hp | hp <;> rw [hp] <;> trivial
  · rcases hp with hp | hp <;> simp [hp]

theorem Inv.handling (h : Inv o s) {i attempt : ℕ} {job : Job} (hi : s.jobs[i]? = some job)
    (hp : job.phase = .handling attempt) : 0 < attempt ∧ attempt ≤ o.maxAttempts := by
  have := (h.jobs i job hi).bounded
  rwa [hp] at this

theorem inv_retried (h : Inv o s) (hs : s.stack = []) {i attempt : ℕ} {job : Job}
    (hi : s.jobs[i]? = some job) (hp : job.phase = .retrying attempt) :
    Inv o (retried o i job attempt s) := by
  have hin := h.inExecute hi (.inr hp)
  obtain ⟨hpos, hlt⟩ : 0 < attempt ∧ attempt < o.maxAttempts := by
    have := (h.jobs i job hi).bounded
    rwa [hp] at this
  rw [retried]
  split
  · exact inv_finish h.ctl (h.others i) hi hin (Nat.le_of_lt hlt)
  · rename_i haborted
    refine inv_beginAttempt h.ctl (h.others i) hi hin (Nat.succ_pos _) hlt (fun _ => ?_) ?_
    · -- once `shutdown()` has run its loops every running job is aborted
      refine Bool.eq_false_iff.mpr fun hclosed => haborted (hin.told ⟨hclosed, hin.runs, ?_⟩)
      simp [(h.ctl.looped (by simp [hs])).2]
    · have : attempt ≠ 0 := by omega
      simpa [this] using h.ctl.first

theorem inv_step (a : Action) (t : State) (h : Inv o s) (hstep : step o s a = some t) : Inv o t := by
  cases step_stepped hstep with
  | register type _ => exact inv_register h type
  | enqueue type _ => exact inv_enqueue h type
  | drain _ => exact h.drain (by simp)
  | shutdown _ => exact inv_shutdown h
  | pump hs => exact inv_pump h hs
  | shutdownLoop hs => exact inv_shutdownLoop h hs
  | returns hs hpump hshutdown => exact ⟨h.jobs, h.ctl.pop hs hpump hshutdown⟩
  | throws hs hi hp =>
    obtain ⟨hpos, hle⟩ := h.handling hi hp
    have hin := h.inExecute hi (.inl hp)
    exact inv_rejected (h.ctl.pop hs (by simp) (by simp)) (h.others _) hi
      ⟨hin.waits, hin.runs, hin.told, hin.settled, hin.results⟩ hpos hle (h.jobs _ _ hi).attempts
  | fulfilled hs hi hp =>
    exact inv_finish h.ctl (h.others _) hi (h.inExecute hi (.inl hp)) (h.handling hi hp).2
  | rejected hs hi hp =>
    obtain ⟨hpos, hle⟩ := h.handling hi hp
    exact inv_rejected h.ctl (h.others _) hi (h.inExecute hi (.inl hp)) hpos hle
      (h.jobs _ _ hi).attempts
  | retried hs hi hp => exact inv_retried h hs hi hp
  | settles hs hi hp => exact inv_settles h hs hi hp
  | resumes hs hk hw => exact inv_resumes h hk hw

end Remembra.Queue.JobQueue
