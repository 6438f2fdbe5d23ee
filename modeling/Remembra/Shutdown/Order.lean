import Remembra.Lib.Indexed
import Remembra.Shutdown.Coordinator

/-! Does a shutdown keep its order? A report is always faithful. The bodies start once and in order as
    long as each call of `shutdown()` that finds no shutdown under way finds that no body has been
    started yet, or has no time to start one (`ordered_iff`). -/

namespace Remembra.Shutdown
open Store (JsNum)
open Transition

/-! ### What a shutdown promises -/

/-- Every phase once and in order, and clean exactly when each has completed. -/
def Report.Faithful (phases : List Phase) (report : Report) : Prop :=
  report.phases.map PhaseResult.name = phases.map Phase.name ∧
    (report.clean = true ↔ ∀ result ∈ report.phases, result.status = .completed)

structure Ordered (c : Coordinator) (s : State) : Prop where
  once : (s.bodies.map Body.phase).Nodup
  /-- No body has been started while that of an earlier phase was running. -/
  order : ∀ body ∈ s.bodies, ∀ i ∈ body.during, ¬ i < body.phase
  reports : ∀ report ∈ s.reports, report.Faithful c.phases

/-- The deadline of a call that begins now is over whenever the loop looks at the clock. -/
def Exhausted (c : Coordinator) (s : State) (deadlineMs : Option JsNum) : Prop :=
  ∀ k < c.phases.length, spent ((deadlineMs.or c.deadlineMs).getD defaultDeadlineMs)
    (c.now (s.reads + 1 + k) - c.now s.reads) = true

/-- A call that finds no shutdown under way is the first that can start a body, or starts none. -/
def Meets (c : Coordinator) (s : State) : Event → Prop
  | .call _ deadlineMs => s.running = none → s.bodies = [] ∨ Exhausted c s deadlineMs
  | _ => True

instance Exhausted.decidable (c : Coordinator) (s : State) (deadlineMs : Option JsNum) :
    Decidable (Exhausted c s deadlineMs) :=
  inferInstanceAs (Decidable (∀ k < c.phases.length, _ = true))

instance Meets.decidable (c : Coordinator) (s : State) : ∀ e, Decidable (Meets c s e)
  | .call _ deadlineMs =>
    inferInstanceAs (Decidable (s.running = none → s.bodies = [] ∨ Exhausted c s deadlineMs))
  | .bodyReturns _ | .bodySettles _ _ | .timerFires _ | .resumes _ | .concludes _ => .isTrue trivial

variable {c : Coordinator} {s t : State} {e : Event} {run : Run}

/-! ### Reports -/

/-- The call has the results of the first `n` phases. -/
structure Run.At (c : Coordinator) (run : Run) (n : ℕ) : Prop where
  named : run.results.map PhaseResult.name = (c.phases.take n).map Phase.name
  forced : run.forced = run.results.any fun result => result.critical && result.status ≠ .completed

theorem Run.At.push {n : ℕ} {phase : Phase} (h : run.At c n) (result : PhaseResult)
    (hphase : c.phases[n]? = some phase) (hname : result.name = phase.name) :
    (run.push result).At c (n + 1) where
  named := by
    simp only [Run.push, List.map_append, List.map_singleton, h.named, hname]
    rw [List.take_add_one, hphase, List.map_append]
    rfl
  forced := by
    simp only [Run.push, List.any_append, List.any_cons, List.any_nil, Bool.or_false, h.forced]

/-- The phases that are left are skipped. -/
theorem Run.At.foldl_skip {n : ℕ} {rest : List Phase} (h : run.At c n) (hrest : c.phases.drop n = rest) :
    ((rest.map Phase.skip).foldl Run.push run).At c c.phases.length := by
  induction rest generalizing run n with
  | nil =>
    have hle := List.drop_eq_nil_iff.mp hrest
    refine ⟨?_, h.forced⟩
    rw [List.map_nil, List.foldl_nil, h.named, List.take_of_length_le hle, List.take_length]
  | cons phase rest ih =>
    have hphase : c.phases[n]? = some phase := by
      rw [← List.head?_drop, hrest, List.head?_cons]
    refine ih (h.push phase.skip hphase rfl) ?_
    rw [← List.tail_drop, hrest, List.tail_cons]

/-- The loop comes to the end of the phases, or to one that there is time for. -/
theorem loop_at (now : ℕ → ℚ) (reads : ℕ) {i : ℕ} {rest : List Phase} (h : run.At c i)
    (hrest : c.phases.drop i = rest) :
    ∃ run' reads', run'.pc = run.pc ∧ run'.startedAt = run.startedAt ∧
      (run.loop now reads i rest = (run', reads', none) ∧ run'.At c c.phases.length ∨
        ∃ j, run.loop now reads i rest = (run', reads', some j) ∧ i ≤ j ∧ run'.At c j) := by
  induction rest generalizing run reads i with
  | nil =>
    refine ⟨run, reads, rfl, rfl, .inl ⟨rfl, ?_⟩⟩
    simpa using h.foldl_skip hrest
  | cons phase rest ih =>
    rw [Run.loop]
    split
    · have hphase : c.phases[i]? = some phase := by
        rw [← List.head?_drop, hrest, List.head?_cons]
      have htail : c.phases.drop (i + 1) = rest := by rw [← List.tail_drop, hrest, List.tail_cons]
      obtain ⟨run', reads', hpc, hstarted, hend | ⟨j, hj, hle, hat⟩⟩ :=
        ih (reads + 1) (h.push phase.skip hphase rfl) htail
      · exact ⟨run', reads', hpc, hstarted, .inl hend⟩
      · exact ⟨run', reads', hpc, hstarted, .inr ⟨j, hj, Nat.le_of_succ_le hle, hat⟩⟩
    · exact ⟨run, reads + 1, rfl, rfl, .inr ⟨i, rfl, le_rfl, h⟩⟩

theorem Run.At.faithful (h : run.At c c.phases.length) (durationMs : ℚ) :
    (run.report durationMs).Faithful c.phases := by
  refine ⟨by simpa [Run.report] using h.named, ?_⟩
  simp only [Run.report, Bool.and_eq_true, Bool.not_eq_true', List.all_eq_true, decide_eq_true_eq, h.forced]
  constructor
  · exact fun hclean => hclean.2
  · intro hall
    refine ⟨List.any_eq_false.mpr fun result hresult => ?_, hall⟩
    simp [hall result hresult]

/-- What holds of every run, whoever calls: each call is at the phase after those it has results of. -/
structure Sound (c : Coordinator) (s : State) : Prop where
  runs : ∀ (r : ℕ) (run : Run), s.runs[r]? = some run → ∀ i, run.pc.phase = some i → run.At c i
  reports : ∀ report ∈ s.reports, report.Faithful c.phases

theorem sound_init : Sound c {} where
  runs r run hr := by simp at hr
  reports report hr := by cases hr

theorem Sound.ends (h : Sound c s) {r : ℕ} (hrun : run.At c c.phases.length) (ofShutdown : Bool)
    (reads : ℕ) : Sound c (s.ends c r run ofShutdown reads) where
  runs := Indexed.forall_set (fun r' run' _ hr' => h.runs r' run' hr') (by rintro i ⟨⟩)
  reports := by
    intro report hreport
    rcases List.mem_append.mp hreport with hold | hnew
    · exact h.reports report hold
    · exact List.mem_singleton.mp hnew ▸ hrun.faithful _

theorem Sound.goesOn (h : Sound c s) {r i : ℕ} (hrun : run.At c i) (ofShutdown : Bool) :
    Sound c (s.goesOn c r run ofShutdown i) := by
  obtain ⟨run', reads', -, -, ⟨hend, hat⟩ | ⟨j, hj, -, hat⟩⟩ :=
    loop_at c.now s.reads hrun rfl
  · rw [State.goesOn, hend]
    exact h.ends hat ofShutdown reads'
  · rw [State.goesOn, hj]
    refine ⟨Indexed.forall_set (fun r' run' _ hr' => h.runs r' run' hr') ?_, h.reports⟩
    rintro k ⟨⟩
    exact ⟨hat.named, hat.forced⟩

/-- A call at the same phase, with the same results. -/
theorem Run.At.of_eq {run' : Run} {n : ℕ} (h : run.At c n) (hresults : run'.results = run.results)
    (hforced : run'.forced = run.forced) : run'.At c n :=
  ⟨hresults ▸ h.named, by rw [hforced, hresults, h.forced]⟩

theorem sound_step (h : Sound c s) (ht : step c s e = some t) : Sound c t := by
  cases e with
  | call reason deadlineMs =>
    rw [step, shutdown] at ht
    split at ht
    · cases ht
      exact h
    · cases ht
      have hnew : Sound c { s with
          runs := s.runs ++ [s.begun c reason deadlineMs], reads := s.reads + 1 } :=
        ⟨Indexed.forall_concat h.runs (by rintro i ⟨⟩), h.reports⟩
      exact hnew.goesOn ⟨rfl, rfl⟩ true
  | bodyReturns how =>
    rw [step, State.bodyReturns] at ht
    split at ht
    · cases ht
    · obtain ⟨body, hbody, ht⟩ := Option.bind_eq_some_iff.mp ht
      obtain ⟨run, hrun, ht⟩ := Option.bind_eq_some_iff.mp ht
      split at ht
      · rename_i i hpc
        cases ht
        have hat := h.runs body.run run hrun i (by rw [hpc]; rfl)
        refine ⟨Indexed.forall_set (fun r' run' _ hr' => h.runs r' run' hr') ?_, h.reports⟩
        rintro k ⟨⟩
        cases how <;> exact hat.of_eq rfl rfl
      · cases ht
  | bodySettles b fulfilled =>
    obtain ⟨body, hbody, ht⟩ := Option.bind_eq_some_iff.mp ht
    obtain ⟨run, hrun, ht⟩ := Option.bind_eq_some_iff.mp ht
    split at ht
    · cases ht
      refine ⟨?_, h.reports⟩
      dsimp only
      split
      · refine Indexed.forall_set (fun r' run' _ hr' => h.runs r' run' hr') ?_
        exact fun i hi => (h.runs body.run run hrun i hi).of_eq rfl rfl
      · exact h.runs
    · cases ht
  | timerFires r =>
    obtain ⟨run, hrun, ht⟩ := Option.bind_eq_some_iff.mp ht
    split at ht
    · cases ht
      refine ⟨Indexed.forall_set (fun r' run' _ hr' => h.runs r' run' hr') ?_, h.reports⟩
      exact fun i hi => (h.runs r run hrun i hi).of_eq rfl rfl
    · cases ht
  | resumes r =>
    obtain ⟨run, hrun, ht⟩ := Option.bind_eq_some_iff.mp ht
    split at ht
    · rename_i i outcome hpc houtcome
      obtain ⟨phase, hphase, ht⟩ := Option.bind_eq_some_iff.mp ht
      have hat := h.runs r run hrun i (by rw [hpc]; rfl)
      have hread : Sound c { s with reads := s.reads + 1 } := ⟨h.runs, h.reports⟩
      split at ht
      · dsimp only at ht
        split at ht
        · cases ht
          exact hread.ends ((hat.push _ hphase rfl).foldl_skip rfl) false _
        · cases ht
          exact hread.goesOn (hat.push _ hphase rfl) false
      · cases ht
    · cases ht
  | concludes r =>
    obtain ⟨run, hrun, ht⟩ := Option.bind_eq_some_iff.mp ht
    split at ht
    · cases ht
      exact ⟨Indexed.forall_set (fun r' run' _ hr' => h.runs r' run' hr') (by rintro i ⟨⟩), h.reports⟩
    · cases ht

/-! ### One shutdown at a time -/

/-- The outcome is one that the body of the phase has come to. -/
def Run.Settled (run : Run) : Prop := ∃ outcome, run.outcome = some outcome ∧ outcome ≠ .timeout

/-- One call at most is in its loop, at the phase of the body that was started last, and no other body
    is running. -/
structure Single (s : State) : Prop where
  sorted : (s.bodies.map Body.phase).Pairwise (· < ·)
  during : ∀ body ∈ s.bodies, body.during = []
  last : ∀ b body, s.bodies[b]? = some body → body.running = true → b + 1 = s.bodies.length
  current : ∀ (r : ℕ) (run : Run), s.runs[r]? = some run → ∀ i, run.pc.phase = some i →
    ∃ body, s.bodies[s.bodies.length - 1]? = some body ∧ body.phase = i ∧ body.run = r ∧
      (run.Settled → body.running = false)
  stack : s.stack.length ≤ 1
  frames : ∀ frame ∈ s.stack, frame.body + 1 = s.bodies.length ∧
    ∀ body, s.bodies[frame.body]? = some body → body.running = true

theorem single_init : Single {} := by
  constructor <;> simp

theorem Single.bodies_nodup (h : Single s) : (s.bodies.map Body.phase).Nodup :=
  h.sorted.imp Nat.ne_of_lt

theorem Single.ordered (h : Single s) (hs : Sound c s) : Ordered c s where
  once := h.bodies_nodup
  order body hbody i hi := by
    rw [h.during body hbody] at hi
    cases hi
  reports := hs.reports

/-- The bodies stay as they are, and the calls that are in their loop are among those that were. -/
theorem Single.of_runs (h : Single s) {running : Option ℕ} {runs : List Run} {reports : List Report}
    {reads : ℕ} (hruns : ∀ (r : ℕ) (run : Run), runs[r]? = some run → ∀ i, run.pc.phase = some i →
      ∃ old, s.runs[r]? = some old ∧ old.pc.phase = some i ∧
        (run.Settled → old.Settled)) :
    Single { s with running, runs, reports, reads } where
  sorted := h.sorted
  during := h.during
  last := h.last
  current r run hr i hi := by
    obtain ⟨old, hold, hphase, hdone⟩ := hruns r run hr i hi
    obtain ⟨body, hlast, hbody, hrun, hsettled⟩ := h.current r old hold i hphase
    exact ⟨body, hlast, hbody, hrun, fun hd => hsettled (hdone hd)⟩
  stack := h.stack
  frames := h.frames

/-- A call that leaves its loop. -/
theorem Single.ends (h : Single s) (r : ℕ) (run : Run) (ofShutdown : Bool) (reads : ℕ) :
    Single (s.ends c r run ofShutdown reads) :=
  h.of_runs (Indexed.forall_set (fun r' run' _ hr' i hi => ⟨run', hr', hi, id⟩) (by rintro i ⟨⟩))

/-- The body of a later phase is started, when no body is running and no other call is in its loop. -/
theorem Single.starts (h : Single s) {r j : ℕ} {run' : Run} (hstack : s.stack = [])
    (hquiet : ∀ body ∈ s.bodies, body.running = false)
    (hothers : ∀ (r' : ℕ) (run : Run), s.runs[r']? = some run → r' ≠ r → run.pc.phase = none)
    (hlater : ∀ body ∈ s.bodies, body.phase < j) (hpc : run'.pc.phase = some j)
    (hnone : run'.outcome = none) (ofShutdown : Bool) (reads : ℕ) :
    Single { s with
      runs := s.runs.set r run'
      bodies := s.bodies ++ [⟨j, r, true, s.runningPhases⟩]
      stack := ⟨s.bodies.length, ofShutdown⟩ :: s.stack
      reads := reads } where
  sorted := by
    rw [List.map_append, List.pairwise_append]
    refine ⟨h.sorted, List.pairwise_singleton _ _, ?_⟩
    intro i hi k hk
    obtain ⟨body, hbody, rfl⟩ := List.mem_map.mp hi
    rw [List.map_singleton, List.mem_singleton] at hk
    exact hk ▸ hlater body hbody
  during := by
    intro body hbody
    rcases List.mem_append.mp hbody with hold | hnew
    · exact h.during body hold
    · rw [List.mem_singleton.mp hnew, State.runningPhases, List.map_eq_nil_iff, List.filter_eq_nil_iff]
      exact fun body hbody => by simp [hquiet body hbody]
  last := by
    refine Indexed.forall_concat (fun b body hb hrunning => ?_) fun _ => by simp
    rw [hquiet body (List.mem_of_getElem? hb)] at hrunning
    cases hrunning
  current := by
    have hlast : (s.bodies ++ [(⟨j, r, true, s.runningPhases⟩ : Body)])[(s.bodies ++
        [(⟨j, r, true, s.runningPhases⟩ : Body)]).length - 1]? = some ⟨j, r, true, s.runningPhases⟩ := by
      simp
    refine Indexed.forall_set (fun r' run hne hr' i hi => ?_) fun i hi => ?_
    · rw [hothers r' run hr' hne] at hi
      cases hi
    · obtain rfl := Option.some.inj (hpc.symm.trans hi)
      exact ⟨_, hlast, rfl, rfl, fun ⟨_, hdone, _⟩ => by simp [hnone] at hdone⟩
  stack := by simp [hstack]
  frames := by simp [hstack]

theorem Single.goesOn (h : Single s) {r i : ℕ} (hrun : run.At c i) (hstack : s.stack = [])
    (hquiet : ∀ body ∈ s.bodies, body.running = false)
    (hothers : ∀ (r' : ℕ) (run : Run), s.runs[r']? = some run → r' ≠ r → run.pc.phase = none)
    (hlater : ∀ body ∈ s.bodies, body.phase < i) (ofShutdown : Bool) :
    Single (s.goesOn c r run ofShutdown i) := by
  obtain ⟨run', reads', -, -, ⟨hend, -⟩ | ⟨j, hj, hle, -⟩⟩ :=
    loop_at c.now s.reads hrun rfl
  · rw [State.goesOn, hend]
    exact h.ends r run' ofShutdown reads'
  · rw [State.goesOn, hj]
    exact h.starts hstack hquiet hothers (fun body hbody => (hlater body hbody).trans_le hle) rfl rfl
      ofShutdown _

/-- The loop starts nothing exactly when its deadline is over whenever it looks at the clock. -/
theorem loop_eq_none_iff (run : Run) (now : ℕ → ℚ) (reads i : ℕ) (rest : List Phase) :
    (run.loop now reads i rest).2.2 = none ↔
      ∀ k < rest.length, spent run.deadlineMs (now (reads + k) - run.startedAt) = true := by
  induction rest generalizing run reads i with
  | nil => simp [Run.loop]
  | cons phase rest ih =>
    rw [Run.loop]
    split
    · rename_i hspent
      rw [ih]
      constructor
      · intro h k hk
        cases k with
        | zero => exact hspent
        | succ k =>
          have hrest := h k (Nat.lt_of_succ_lt_succ hk)
          rwa [show reads + 1 + k = reads + (k + 1) by omega] at hrest
      · intro h k hk
        have hrest := h (k + 1) (Nat.succ_lt_succ hk)
        rwa [show reads + (k + 1) = reads + 1 + k by omega] at hrest
    · rename_i hspent
      refine iff_of_false (by rintro ⟨⟩) fun h => hspent (h 0 (by simp))

/-- A call that is exhausted comes to its end without starting a body. -/
theorem goesOn_of_exhausted (run : Run) (r : ℕ) (s' : State) (h : ∀ k < c.phases.length,
      spent run.deadlineMs (c.now (s'.reads + k) - run.startedAt) = true) (ofShutdown : Bool) :
    ∃ run' reads', s'.goesOn c r run ofShutdown 0 = s'.ends c r run' ofShutdown reads' := by
  have hnone := (loop_eq_none_iff run c.now s'.reads 0 (c.phases.drop 0)).mpr h
  rw [State.goesOn]
  rcases hloop : run.loop c.now s'.reads 0 (c.phases.drop 0) with ⟨run', reads', j⟩
  rw [hloop] at hnone
  obtain rfl : j = none := hnone
  exact ⟨run', reads', rfl⟩

theorem single_call (h : Single s) {reason : String} {deadlineMs : Option JsNum}
    (hmeets : s.running = none → s.bodies = [] ∨ Exhausted c s deadlineMs) :
    Single (shutdown c reason deadlineMs s) := by
  rw [shutdown]
  split
  · exact h
  · rename_i hrunning
    have hnew : Single { s with
        runs := s.runs ++ [s.begun c reason deadlineMs], reads := s.reads + 1 } :=
      h.of_runs (Indexed.forall_concat (fun r run hr i hi => ⟨run, hr, hi, id⟩) (by rintro i ⟨⟩))
    rcases hmeets hrunning with hnone | hexhausted
    · have hno : ∀ {p : Body → Prop}, ∀ body ∈ s.bodies, p body := by simp [hnone]
      refine hnew.goesOn (i := 0) ⟨rfl, rfl⟩ ?_ hno ?_ hno true
      · refine List.eq_nil_iff_forall_not_mem.mpr fun frame hframe => ?_
        have := (h.frames frame hframe).1
        simp [hnone] at this
      · refine Indexed.forall_concat (fun r run hr _ => ?_) fun hne => absurd rfl hne
        by_contra hphase
        obtain ⟨i, hi⟩ := Option.ne_none_iff_exists'.mp hphase
        obtain ⟨body, hbody, -⟩ := h.current r run hr i hi
        simp [hnone] at hbody
    · obtain ⟨run', reads', hends⟩ := goesOn_of_exhausted (c := c) (s.begun c reason deadlineMs)
        s.runs.length { s with
          runs := s.runs ++ [s.begun c reason deadlineMs], reads := s.reads + 1 } hexhausted true
      rw [hends]
      exact hnew.ends _ run' true reads'

/-- The body that a call is at is not one that runs, once it has settled. -/
theorem Single.quiet (h : Single s) {r i : ℕ} (hr : s.runs[r]? = some run) (hi : run.pc.phase = some i)
    (hdone : run.Settled) :
    ∀ body ∈ s.bodies, body.running = false := by
  obtain ⟨last, hlast, -, -, hsettled⟩ := h.current r run hr i hi
  intro body hbody
  obtain ⟨b, hb⟩ := List.mem_iff_getElem?.mp hbody
  rw [← Bool.not_eq_true]
  intro hrunning
  have hlength := h.last b body hb hrunning
  rw [show s.bodies.length - 1 = b by omega, hb, Option.some.injEq] at hlast
  rw [hlast, hsettled hdone] at hrunning
  cases hrunning

/-- Two calls in their loops are one. -/
theorem Single.others (h : Single s) {r i : ℕ} (hr : s.runs[r]? = some run)
    (hi : run.pc.phase = some i) (r' : ℕ) (run' : Run) (hr' : s.runs[r']? = some run') (hne : r' ≠ r) :
    run'.pc.phase = none := by
  by_contra hphase
  obtain ⟨i', hi'⟩ := Option.ne_none_iff_exists'.mp hphase
  obtain ⟨last, hlast, -, hrun, -⟩ := h.current r run hr i hi
  obtain ⟨last', hlast', -, hrun', -⟩ := h.current r' run' hr' i' hi'
  obtain rfl : last = last' := Option.some.inj (hlast.symm.trans hlast')
  exact hne (hrun'.symm.trans hrun)

/-- No body is of a phase after the one that the call is at. -/
theorem Single.upto (h : Single s) {r i : ℕ} (hr : s.runs[r]? = some run) (hi : run.pc.phase = some i) :
    ∀ body ∈ s.bodies, body.phase < i + 1 := by
  obtain ⟨last, hlast, rfl, -, -⟩ := h.current r run hr i hi
  intro body hbody
  obtain ⟨b, hb, rfl⟩ := List.mem_iff_getElem.mp hbody
  obtain ⟨hlt, rfl⟩ := List.getElem?_eq_some_iff.mp hlast
  rcases eq_or_ne b (s.bodies.length - 1) with rfl | hne
  · exact Nat.lt_succ_self _
  · have := List.pairwise_iff_getElem.mp h.sorted b (s.bodies.length - 1) (by simpa using hb)
      (by simpa using hlt) (by omega)
    simp only [List.getElem_map] at this
    exact Nat.lt_succ_of_lt this

/-- A body returns or settles, and what its call hears of it is an outcome of this body. -/
theorem Single.set (h : Single s) {b : ℕ} {body : Body} {still : Bool} {running : Option ℕ}
    {runs : List Run} (hb : s.bodies[b]? = some body)
    (hstill : still = true → body.running = true)
    (hruns : ∀ (r : ℕ) (run : Run), runs[r]? = some run → ∀ i, run.pc.phase = some i →
      ∃ old, s.runs[r]? = some old ∧ old.pc.phase = some i ∧
        (run.Settled → old.Settled ∨ still = false ∧ body.phase = i)) :
    Single { s with
      running, runs, stack := [], bodies := s.bodies.set b { body with running := still } } where
  sorted := by
    have hsame : (s.bodies.set b { body with running := still }).map Body.phase =
        s.bodies.map Body.phase := by
      obtain ⟨hlt, rfl⟩ := List.getElem?_eq_some_iff.mp hb
      rw [List.map_set]
      change (s.bodies.map Body.phase).set b s.bodies[b].phase = _
      rw [← List.getElem_map Body.phase (h := by simpa using hlt), List.set_getElem_self]
    rw [hsame]
    exact h.sorted
  during := by
    intro body' hbody'
    rcases List.mem_or_eq_of_mem_set hbody' with hold | rfl
    · exact h.during body' hold
    · exact h.during body (List.mem_of_getElem? hb)
  last := by
    rw [List.length_set]
    refine Indexed.forall_set (fun b' body' _ hb' => h.last b' body' hb') fun hrunning => ?_
    exact h.last b body hb (hstill hrunning)
  current := by
    intro r run hr i hi
    obtain ⟨old, hold, hphase, hdone⟩ := hruns r run hr i hi
    obtain ⟨last, hlast, hlastphase, hlastrun, hsettled⟩ := h.current r old hold i hphase
    rw [List.length_set]
    by_cases hbl : b = s.bodies.length - 1
    · obtain rfl : body = last := Option.some.inj (hb.symm.trans (hbl ▸ hlast))
      have hlt := (List.getElem?_eq_some_iff.mp hb).1
      refine ⟨{ body with running := still }, ?_, hlastphase, hlastrun, fun hd => ?_⟩
      · rw [← hbl, List.getElem?_set_self hlt]
      · rcases hdone hd with hold' | ⟨hfalse, -⟩
        · rw [← Bool.not_eq_true]
          intro htrue
          have := hstill htrue
          rw [hsettled hold'] at this
          cases this
        · exact hfalse
    · refine ⟨last, by rw [List.getElem?_set_ne hbl, hlast], hlastphase, hlastrun, fun hd => ?_⟩
      rcases hdone hd with hold' | ⟨-, hbody⟩
      · exact hsettled hold'
      · -- the body that the call hears of is the last one
        obtain ⟨hlt, hget⟩ := List.getElem?_eq_some_iff.mp hb
        obtain ⟨hlt', hget'⟩ := List.getElem?_eq_some_iff.mp hlast
        have hsame : (s.bodies.map Body.phase).get ⟨b, by simpa using hlt⟩ =
            (s.bodies.map Body.phase).get ⟨s.bodies.length - 1, by simpa using hlt'⟩ := by
          simp [hget, hget', hbody, hlastphase]
        exact absurd (Fin.mk.inj_iff.mp (h.bodies_nodup.get_inj_iff.mp hsame)) hbl
  stack := Nat.zero_le _
  frames := by rintro frame ⟨⟩

theorem single_step (hs : Sound c s) (h : Single s) (hmeets : Meets c s e) (ht : step c s e = some t) :
    Single t := by
  cases e with
  | call reason deadlineMs =>
    cases ht
    exact single_call h hmeets
  | bodyReturns how =>
    rw [step, State.bodyReturns] at ht
    split at ht
    · cases ht
    · rename_i frame stack hstack
      obtain ⟨body, hbody, ht⟩ := Option.bind_eq_some_iff.mp ht
      obtain ⟨run, hrun, ht⟩ := Option.bind_eq_some_iff.mp ht
      split at ht
      · rename_i i hpc
        cases ht
        obtain rfl : stack = [] := by
          have hlength := h.stack
          rw [hstack, List.length_cons] at hlength
          exact List.length_eq_zero_iff.mp (by omega)
        obtain ⟨hlength, hrunning⟩ := h.frames frame (hstack ▸ List.mem_cons_self)
        have hi : run.pc.phase = some i := by rw [hpc]; rfl
        -- the body that returns is the one that its call is at
        obtain ⟨last, hlast, hphase, -, -⟩ := h.current body.run run hrun i hi
        rw [show s.bodies.length - 1 = frame.body by omega, hbody, Option.some.injEq] at hlast
        subst hlast
        refine h.set hbody (fun _ => hrunning body hbody) ?_
        refine Indexed.forall_set (fun r run' _ hr j hj => ⟨run', hr, hj, .inl⟩) ?_
        rintro k ⟨⟩
        refine ⟨run, hrun, hi, fun hd => ?_⟩
        cases how with
        | value | throws => exact .inr ⟨rfl, hphase⟩
        | promise => exact .inl hd
      · cases ht
  | bodySettles b fulfilled =>
    obtain ⟨body, hbody, ht⟩ := Option.bind_eq_some_iff.mp ht
    obtain ⟨run, hrun, ht⟩ := Option.bind_eq_some_iff.mp ht
    split at ht
    · rename_i hsync
      cases ht
      rw [hsync.1]
      refine h.set hbody (by rintro ⟨⟩) ?_
      split
      · rename_i hpc
        refine Indexed.forall_set (fun r run' _ hr j hj => ⟨run', hr, hj, .inl⟩) fun i hi => ?_
        refine ⟨run, hrun, hi, fun hd => .inr ⟨rfl, ?_⟩⟩
        change run.pc.phase = some i at hi
        rw [hpc] at hi
        exact Option.some.inj hi
      · exact fun r run' hr j hj => ⟨run', hr, hj, .inl⟩
    · cases ht
  | timerFires r =>
    obtain ⟨run, hrun, ht⟩ := Option.bind_eq_some_iff.mp ht
    split at ht
    · cases ht
      refine h.of_runs (Indexed.forall_set (fun r' run' _ hr' i hi => ⟨run', hr', hi, id⟩) fun i hi => ?_)
      refine ⟨run, hrun, hi, ?_⟩
      rintro ⟨outcome, hout, hne⟩
      cases hrunout : run.outcome with
      | none =>
        rw [Run.settle, hrunout] at hout
        exact absurd (Option.some.inj hout).symm hne
      | some old =>
        rw [Run.settle, hrunout] at hout
        exact ⟨outcome, hrunout.trans hout, hne⟩
    · cases ht
  | resumes r =>
    obtain ⟨run, hrun, ht⟩ := Option.bind_eq_some_iff.mp ht
    split at ht
    · rename_i i outcome hpc houtcome
      obtain ⟨phase, hphase, ht⟩ := Option.bind_eq_some_iff.mp ht
      have hi : run.pc.phase = some i := by rw [hpc]; rfl
      have hread : Single { s with reads := s.reads + 1 } := h.of_runs fun r run hr i hi => ⟨run, hr, hi, id⟩
      split at ht
      · rename_i hstack
        dsimp only at ht
        split at ht
        · cases ht
          exact hread.ends ..
        · rename_i hout
          cases ht
          have hat := (hs.runs r run hrun i hi).push
            (phase.result outcome (c.now s.reads - run.phaseStartedAt)) hphase rfl
          exact hread.goesOn hat hstack (h.quiet hrun hi ⟨outcome, houtcome, hout⟩) (h.others hrun hi) (h.upto hrun hi) false
      · cases ht
    · cases ht
  | concludes r =>
    obtain ⟨run, hrun, ht⟩ := Option.bind_eq_some_iff.mp ht
    split at ht
    · cases ht
      exact h.of_runs (Indexed.forall_set (fun r' run' _ hr' i hi => ⟨run', hr', hi, id⟩) (by rintro i ⟨⟩))
    · cases ht

/-! ### The first body -/

theorem spent_mono {deadlineMs : JsNum} {elapsed elapsed' : ℚ} (hle : elapsed ≤ elapsed')
    (h : spent deadlineMs elapsed = true) : spent deadlineMs elapsed' = true := by
  cases deadlineMs with
  | finite q =>
    simp only [spent, decide_eq_true_eq] at h ⊢
    linarith
  | negInfinity => rfl
  | nan | infinity => cases h

/-- On a clock that never goes back, the loop starts the phase it is at or none. -/
theorem loop_first {reads i j : ℕ} {rest : List Phase} (hclock : Monotone c.now)
    (h : (run.loop c.now reads i rest).2.2 = some j) : j = i := by
  cases rest with
  | nil => cases h
  | cons phase rest =>
    by_cases hspent : spent run.deadlineMs (c.now reads - run.startedAt) = true
    · have hnone := (loop_eq_none_iff run c.now reads i (phase :: rest)).mpr fun k _ =>
        spent_mono (sub_le_sub_right (hclock (Nat.le_add_right reads k)) _) hspent
      rw [hnone] at h
      cases h
    · rw [Run.loop, if_neg hspent] at h
      exact (Option.some.inj h).symm

/-- A call that finds no shutdown under way and has time for a body starts that of the first phase. -/
theorem bodies_call (hclock : Monotone c.now) (reason : String) {deadlineMs : Option JsNum}
    (hrunning : s.running = none) (hexhausted : ¬ Exhausted c s deadlineMs) :
    ∃ body, (shutdown c reason deadlineMs s).bodies = s.bodies ++ [body] ∧ body.phase = 0 := by
  rw [shutdown, hrunning]
  dsimp only
  rw [State.goesOn]
  rcases hloop : (s.begun c reason deadlineMs).loop c.now (s.reads + 1) 0 (c.phases.drop 0) with
    ⟨run, reads, j⟩
  cases j with
  | none =>
    refine absurd ((loop_eq_none_iff (s.begun c reason deadlineMs) c.now (s.reads + 1) 0
      (c.phases.drop 0)).mp ?_) hexhausted
    rw [hloop]
  | some j => exact ⟨_, rfl, loop_first hclock (by rw [hloop])⟩

/-! ### Runs -/

/-- A body of the first phase has been started, if any has. -/
def Begun (s : State) : Prop := s.bodies ≠ [] → ∃ body ∈ s.bodies, body.phase = 0

/-- A body that returns or settles is still of the same phase. -/
theorem Begun.set (h : Begun s) {b : ℕ} {body : Body} {still : Bool} (hb : s.bodies[b]? = some body)
    {t : State} (ht : t.bodies = s.bodies.set b { body with running := still }) : Begun t := by
  intro _
  have hne : s.bodies ≠ [] := by
    intro hnil
    simp [hnil] at hb
  obtain ⟨first, hfirst, hzero⟩ := h hne
  obtain ⟨k, hk⟩ := List.mem_iff_getElem?.mp hfirst
  rw [ht]
  rcases eq_or_ne k b with rfl | hkb
  · obtain rfl : first = body := Option.some.inj (hk.symm.trans hb)
    exact ⟨_, List.mem_set (List.getElem?_eq_some_iff.mp hb).1 _, hzero⟩
  · exact ⟨first, List.mem_of_getElem? ((List.getElem?_set_ne hkb.symm).trans hk), hzero⟩

/-- A call that goes on keeps the bodies there are, and the first one of all it starts is that of the
    phase it is at. -/
theorem Begun.goesOn (h : Begun s) (hclock : Monotone c.now) {r i : ℕ} {ofShutdown : Bool}
    (hfirst : s.bodies = [] → i = 0) : Begun (s.goesOn c r run ofShutdown i) := by
  rw [State.goesOn]
  rcases hloop : run.loop c.now s.reads i (c.phases.drop i) with ⟨run', reads', j⟩
  cases j with
  | none => exact h
  | some j =>
    have hj : j = i := loop_first hclock (by rw [hloop])
    intro _
    by_cases hnil : s.bodies = []
    · exact ⟨_, List.mem_append_right _ List.mem_cons_self, hj.trans (hfirst hnil)⟩
    · obtain ⟨body, hbody, hzero⟩ := h hnil
      exact ⟨body, List.mem_append_left _ hbody, hzero⟩

theorem begun_step (hclock : Monotone c.now) (h : Single s) (hbegun : Begun s)
    (ht : step c s e = some t) : Begun t := by
  cases e with
  | call reason deadlineMs =>
    rw [step, shutdown] at ht
    split at ht
    · cases ht
      exact hbegun
    · cases ht
      have hnew : Begun { s with
        runs := s.runs ++ [s.begun c reason deadlineMs], reads := s.reads + 1 } := hbegun
      exact hnew.goesOn hclock fun _ => rfl
  | bodyReturns how =>
    rw [step, State.bodyReturns] at ht
    split at ht
    · cases ht
    · obtain ⟨body, hbody, ht⟩ := Option.bind_eq_some_iff.mp ht
      obtain ⟨run, -, ht⟩ := Option.bind_eq_some_iff.mp ht
      split at ht
      · cases ht
        exact hbegun.set hbody rfl
      · cases ht
  | bodySettles b fulfilled =>
    obtain ⟨body, hbody, ht⟩ := Option.bind_eq_some_iff.mp ht
    obtain ⟨run, -, ht⟩ := Option.bind_eq_some_iff.mp ht
    split at ht
    · cases ht
      exact hbegun.set hbody rfl
    · cases ht
  | timerFires r =>
    obtain ⟨run, -, ht⟩ := Option.bind_eq_some_iff.mp ht
    split at ht
    · cases ht
      exact hbegun
    · cases ht
  | resumes r =>
    obtain ⟨run, hrun, ht⟩ := Option.bind_eq_some_iff.mp ht
    split at ht
    · rename_i i outcome hpc houtcome
      obtain ⟨phase, -, ht⟩ := Option.bind_eq_some_iff.mp ht
      have hread : Begun { s with reads := s.reads + 1 } := hbegun
      split at ht
      · dsimp only at ht
        split at ht
        · cases ht
          exact hbegun
        · cases ht
          refine hread.goesOn hclock fun hnil => ?_
          -- the call awaits a body, so one has been started
          obtain ⟨body, hbody, -⟩ := h.current r run hrun i (by rw [hpc]; rfl)
          rw [show s.bodies = [] from hnil] at hbody
          simp at hbody
      · cases ht
    · cases ht
  | concludes r =>
    obtain ⟨run, -, ht⟩ := Option.bind_eq_some_iff.mp ht
    split at ht
    · cases ht
      exact hbegun
    · cases ht

/-- A call that finds no shutdown under way, but a body that has been started, and has time, starts the
    first phase again. -/
theorem not_ordered_of_not_meets (hclock : Monotone c.now) (hbegun : Begun s) (hnot : ¬ Meets c s e)
    (ht : step c s e = some t) : ¬ Ordered c t := by
  cases e with
  | call reason deadlineMs =>
    simp only [Meets, Classical.not_imp, not_or] at hnot
    obtain ⟨hrunning, hstarted, hexhausted⟩ := hnot
    obtain ⟨body, hbodies, hphase⟩ := bodies_call hclock reason hrunning hexhausted
    obtain ⟨first, hfirst, hzero⟩ := hbegun hstarted
    cases ht
    intro hordered
    have honce := hordered.once
    rw [hbodies, List.map_append, List.nodup_append] at honce
    exact honce.2.2 _ (List.mem_map_of_mem hfirst) _ (List.mem_map_of_mem (List.mem_singleton_self body))
      (hzero.trans hphase.symm)
  | bodyReturns _ | bodySettles _ _ | timerFires _ | resumes _ | concludes _ => exact absurd trivial hnot

/-- On any clock a run keeps its order if each call of `shutdown()` that finds no shutdown under way is
    the first to start a body or starts none, and on a clock that never goes back only then. -/
theorem ordered_iff (c : Coordinator) (events : List Event) :
    (Along (step c) (Meets c) {} events → Everywhere (step c) (Ordered c) {} events) ∧
      (Monotone c.now → Everywhere (step c) (Ordered c) {} events →
        Along (step c) (Meets c) {} events) := by
  constructor
  · exact everywhere_of_along (I := fun s => Sound c s ∧ Single s)
      (fun _ _ _ h hmeets ht => ⟨sound_step h.1 ht, single_step h.1 h.2 hmeets ht⟩)
      (fun _ h => h.2.ordered h.1) events ⟨sound_init, single_init⟩
  · intro hclock
    exact (everywhere_iff_along (I := fun s => (Sound c s ∧ Single s) ∧ Begun s)
      (fun _ _ _ h hmeets ht => ⟨⟨sound_step h.1.1 ht, single_step h.1.1 h.1.2 hmeets ht⟩,
        begun_step hclock h.1.2 h.2 ht⟩)
      (fun _ h => h.1.2.ordered h.1.1)
      (fun _ _ _ h hnot ht => not_ordered_of_not_meets hclock h.2 hnot ht)
      ⟨⟨sound_init, single_init⟩, by simp [Begun]⟩ events).mp

/-- One phase, and a clock that stands still. -/
def drainOnly : Coordinator where
  phases := [{ name := "drain" }]
  deadlineMs := none
  now _ := 0
  named := List.nodup_singleton _

/-- A shutdown from its call to its report. -/
def terminated : List Event := [.call "SIGTERM" none, .bodyReturns .value, .resumes 0, .concludes 0]

theorem ordered_terminated : Everywhere (step drainOnly) (Ordered drainOnly) {} terminated ∧
    Along (step drainOnly) (Meets drainOnly) {} terminated :=
  have hordered := (ordered_iff drainOnly terminated).1 (by decide +kernel)
  ⟨hordered, (ordered_iff drainOnly terminated).2 monotone_const hordered⟩

/-- A second signal after the report, and a phase that calls `shutdown()` itself. -/
theorem drain_twice :
    ¬ Everywhere (step drainOnly) (Ordered drainOnly) {} (terminated ++ [.call "SIGINT" none]) ∧
      ¬ Everywhere (step drainOnly) (Ordered drainOnly) {} [.call "SIGTERM" none, .call "drain" none] := by
  have hbad (t : State) (h : (!decide (t.bodies.map Body.phase).Nodup) = true) : ¬ Ordered drainOnly t :=
    fun hordered => by simp [hordered.once] at h
  exact ⟨not_everywhere _ (by decide +kernel) hbad, not_everywhere _ (by decide +kernel) hbad⟩

end Remembra.Shutdown
