import Remembra.Jobs.Fencing
import Remembra.Lib.Indexed

/-! Several durable workers over one job store. Each call of the store is atomic, and so is what a
    worker's process does between two of its `await`s; everything else interleaves. A worker is
    known by its owner string, and no two workers share one.

    A run is one execution of `run(job)`. Beside what the process keeps of it, the model keeps what
    has become of the claim it was started for: it is held while the record shows the worker's lease,
    and then it was lost, voluntarily (some call of the workers gave the lease up) or not (it ran out
    and was reclaimed), with the handler's signal aborted by then or not. -/

namespace Remembra.Worker.Fleet
open Jobs Transition

/-- The options of every worker, by owner, and `JSON.parse` of a payload, which throws or does not. -/
structure Config where
  types : String → List String
  leaseMs : String → Option ℤ
  tenantId : String → Option String
  parses : String → Bool

/-- `Math.max(1_000, options.leaseMs ?? DEFAULT_LEASE_MS)` -/
def Config.lease (cfg : Config) (worker : String) : ℤ :=
  max 1000 ((cfg.leaseMs worker).getD defaultLeaseMs)

/-- What `claimOne` asks the store for. -/
def Config.claimOptions (cfg : Config) (worker : String) : ClaimOptions where
  owner := some worker
  leaseMs := some (cfg.lease worker)
  types := some (cfg.types worker)
  tenantId := cfg.tenantId worker

inductive Phase where
  /-- The store has handed out the job, `run` has not begun. -/
  | claimed
  /-- Awaiting the handler. -/
  | handling
  /-- The handler has resolved, or thrown. -/
  | returned (ok : Bool)
  /-- The last call of the store has been made. -/
  | settled
  | done
  deriving DecidableEq

inductive Fate where
  | held
  | lost (voluntary aborted : Bool)
  deriving DecidableEq

/-- One run: the job as claimed, the renewal interval, the renewals whose result has not arrived, the
    two flags, and what became of the claim. -/
structure Run where
  worker : String
  job : JobRecord
  phase : Phase
  renew : Bool
  renewals : List Bool
  lostLease : Bool
  aborted : Bool
  fate : Fate
  deriving DecidableEq

def Run.new (worker : String) (job : JobRecord) : Run :=
  ⟨worker, job, .claimed, false, [], false, false, .held⟩

/-- An entry of a worker's `inFlight` map: the job and the run that registered it. -/
structure InFlight where
  worker : String
  jobId : String
  run : ℕ
  deriving DecidableEq

/-- The store, the runs in the order of their claims, the workers' maps, and the entries that calls
    of `stop` have yet to give up. -/
structure State (σ : Type*) where
  store : σ
  runs : List Run
  inFlight : List InFlight
  pending : List InFlight

variable {π σ : Type*} (S : JobStore π σ) (cfg : Config)

def init : State σ := ⟨S.empty, [], [], []⟩

/-- A claim whose record no longer shows the worker's lease is lost. -/
def Run.track (store : σ) (voluntary : Bool) (r : Run) : Run :=
  if r.fate = .held ∧ S.leaseOwner store r.job.jobId ≠ some r.worker then
    { r with fate := .lost voluntary r.aborted }
  else r

/-- The state after a call that left `store`. -/
def State.put (f : State σ) (voluntary : Bool) (store : σ) : State σ :=
  { f with store := store, runs := f.runs.map (Run.track S store voluntary) }

def State.modify (f : State σ) (i : ℕ) (g : Run → Run) : State σ :=
  { f with runs := f.runs.modify i g }

def State.register (f : State σ) (i : ℕ) (r : Run) : State σ :=
  { f with inFlight := f.inFlight.filter (fun e => ¬ (e.worker = r.worker ∧ e.jobId = r.job.jobId))
      ++ [⟨r.worker, r.job.jobId, i⟩] }

def State.unregister (f : State σ) (worker jobId : String) : State σ :=
  { f with inFlight := f.inFlight.filter fun e => ¬ (e.worker = worker ∧ e.jobId = jobId) }

def State.complete (f : State σ) (now : ℤ) (r : Run) : State σ :=
  f.put S true (S.complete f.store now r.job.jobId r.worker).1

def State.fail (f : State σ) (now : ℤ) (worker jobId label : String) : State σ :=
  f.put S true (S.fail f.store now jobId worker label none).1

/-- What happens to one run. -/
inductive Event where
  /-- `run` begins: it refuses the job, or registers it and calls the handler. -/
  | begins (now : ℤ)
  /-- The renewal interval fires. -/
  | renews (now : ℤ)
  /-- The result of the oldest renewal under way arrives. -/
  | renewed
  /-- A renewal is rejected. -/
  | renewThrows
  /-- The handler resolves or throws. -/
  | returns (ok : Bool)
  /-- What follows the handler, up to its call of the store. -/
  | finishes (now : ℤ) (label : String)
  /-- The `finally`. -/
  | ends

inductive Action (π : Type*) where
  | enqueue (now : ℤ) (newId : String) (input : EnqueueInput π)
  | reclaimExpired (now : ℤ)
  | prune (now olderThanMs : ℤ)
  | claims (worker : String) (now : ℤ)
  | run (i : ℕ) (event : Event)
  /-- A call of `stop` has waited for `timeoutMs`. -/
  | stops (worker : String)
  /-- `stop` gives up the next job it found in flight. -/
  | givesUp (entry : InFlight) (now : ℤ)

def begin (f : State σ) (i : ℕ) (r : Run) (now : ℤ) : State σ :=
  if r.job.type ∉ cfg.types r.worker then
    (f.fail S now r.worker r.job.jobId "NO_HANDLER").modify i fun r => { r with phase := .done }
  else
    let f := (f.register i r).modify i fun r => { r with renew := true }
    if cfg.parses r.job.payload then f.modify i fun r => { r with phase := .handling }
    else (f.fail S now r.worker r.job.jobId "INVALID_PAYLOAD").modify i
      fun r => { r with phase := .settled }

/-- A renewal's result; both flags are set at the first refusal. -/
def Run.renewed (ok : Bool) (rest : List Bool) (r : Run) : Run :=
  if ok || r.lostLease then { r with renewals := rest }
  else { r with renewals := rest, lostLease := true, aborted := true }

/-- The `i`-th run, `r`, takes a step. -/
def Run.step (f : State σ) (i : ℕ) (r : Run) : Event → Option (State σ)
  | .begins now => if r.phase = .claimed then some (begin S cfg f i r now) else none
  | .renews now =>
    if r.renew then
      let renew := S.renew f.store now r.job.jobId r.worker (some (cfg.lease r.worker))
      some ((f.put S true renew.1).modify i fun r => { r with renewals := r.renewals ++ [renew.2] })
    else none
  | .renewed =>
    match r.renewals with
    | [] => none
    | ok :: rest => some (f.modify i (Run.renewed ok rest))
  | .renewThrows =>
    if r.renew then some (f.modify i fun r => { r with lostLease := true, aborted := true })
    else none
  | .returns ok =>
    if r.phase = .handling then some (f.modify i fun r => { r with phase := .returned ok })
    else none
  | .finishes now label =>
    match r.phase with
    | .returned true =>
      let f := if r.lostLease then f else f.complete S now r
      some (f.modify i fun r => { r with phase := .settled })
    | .returned false =>
      some ((f.fail S now r.worker r.job.jobId label).modify i fun r => { r with phase := .settled })
    | _ => none
  | .ends =>
    if r.phase = .settled then
      some ((f.unregister r.worker r.job.jobId).modify i
        fun r => { r with phase := .done, renew := false })
    else none

def step (f : State σ) : Action π → Option (State σ)
  | .enqueue now newId input => some (f.put S false (S.enqueue f.store now newId input).1)
  | .reclaimExpired now => some (f.put S false (S.reclaimExpired f.store now).1)
  | .prune now olderThanMs => some (f.put S false (S.prune f.store now olderThanMs).1)
  | .claims worker now =>
    let claim := S.claim f.store now (cfg.claimOptions worker)
    let f := f.put S false claim.1
    match claim.2 with
    | none => some f
    | some job => some { f with runs := f.runs ++ [.new worker job] }
  | .run i event => (f.runs[i]?).bind fun r => r.step S cfg f i event
  | .stops worker => some { f with pending := f.pending ++ f.inFlight.filter (·.worker = worker) }
  | .givesUp e now =>
    if e ∈ f.pending then
      let f := ({ f with pending := f.pending.erase e }.unregister e.worker e.jobId).modify e.run
        fun r => { r with renew := false }
      some (f.fail S now e.worker e.jobId "LEASE_RELEASED")
    else none

/-! ### The law -/

/-- The handler has neither returned nor been aborted before its lease was given up voluntarily; read
    strictly, a lease that ran out counts as given up too. -/
def Run.exposed (strict : Bool) (r : Run) : Bool :=
  decide (r.phase = .handling) &&
    match r.fate with
    | .held => true
    | .lost voluntary aborted => (voluntary || strict) && !aborted

/-- This run's beginning calls the handler. -/
def Run.starts (r : Run) : Prop :=
  r.phase = .claimed ∧ r.job.type ∈ cfg.types r.worker ∧ cfg.parses r.job.payload = true

instance (r : Run) : Decidable (r.starts cfg) := inferInstanceAs (Decidable (_ ∧ _ ∧ _))

/-- When a worker starts a handler, every handler of this job that another worker has started has
    returned or was aborted before its lease was given up. -/
def StartsAlone (strict : Bool) (f : State σ) : Action π → Prop
  | .run i (.begins _) => ∀ r ∈ f.runs[i]?, r.starts cfg → ∀ r' ∈ f.runs,
      r'.job.jobId = r.job.jobId → r'.worker ≠ r.worker → r'.exposed strict = false
  | _ => True

/-- The run is in its handler, not aborted, and holds the claim. -/
def Run.atWork (r : Run) : Prop := r.phase = .handling ∧ r.aborted = false ∧ r.fate = .held

instance (r : Run) : Decidable r.atWork := inferInstanceAs (Decidable (_ ∧ _ ∧ _))

/-- Handing the job back does not take it from a handler at work: none of the worker's is, or no
    attempt is left. -/
def Releasable (f : State σ) (worker jobId : String) : Prop :=
  ∀ r ∈ f.runs, r.worker = worker → r.job.jobId = jobId → r.atWork →
    ∀ row ∈ S.get f.store jobId, row.maxAttempts ≤ row.attempt

instance (f : State σ) (worker jobId : String) : Decidable (Releasable S f worker jobId) :=
  inferInstanceAs (Decidable (∀ r ∈ f.runs, _))

/-- The steps the law holds for: a job is handed back only when that takes it from no handler at
    work, a handler starts only while its claim is held, and no job is enqueued under an id that a
    handler is at. Read strictly, no lease runs out under a handler at work either. -/
def Orderly (strict : Bool) (f : State σ) : Action π → Prop
  | .enqueue _ newId input => ∀ r ∈ f.runs, r.job.jobId = input.jobId.getD newId →
      r.phase ≠ .handling
  | .reclaimExpired now => strict = true → ∀ r ∈ f.runs,
      S.leaseOwner (S.reclaimExpired f.store now).1 r.job.jobId ≠ some r.worker →
        Releasable S f r.worker r.job.jobId
  | .run i (.begins _) => ∀ r ∈ f.runs[i]?, if r.starts cfg then r.fate = .held
      else Releasable S f r.worker r.job.jobId
  | .run i (.finishes _ _) => ∀ r ∈ f.runs[i]?, r.phase = .returned false →
      Releasable S f r.worker r.job.jobId
  | .givesUp e _ => Releasable S f e.worker e.jobId
  | _ => True

/-! ### The invariant -/

/-- The job will not be handed out any more: its record is settled or gone. -/
def Closed (store : σ) (j : String) : Prop := ∀ row, S.get store j = some row → IsSettled row

/-- A record shows a lease exactly while it is running. -/
def Leased (store : σ) : Prop :=
  ∀ j row, S.get store j = some row → (row.leaseOwner.isSome = true ↔ row.state = .running)

structure Inv (strict : Bool) (f : State σ) : Prop where
  leased : Leased S f.store
  /-- The record of a claim that is held shows the worker. -/
  shown : ∀ (i : ℕ) (r : Run), f.runs[i]? = some r → r.fate = .held →
    S.leaseOwner f.store r.job.jobId = some r.worker
  /-- At most one claim of a job is held. -/
  unique : ∀ (i i' : ℕ) (r r' : Run), f.runs[i]? = some r → f.runs[i']? = some r' → r.fate = .held →
    r'.fate = .held → r.job.jobId = r'.job.jobId → i = i'
  /-- Where a handler is exposed without its claim, the job is closed. -/
  closed : ∀ (i : ℕ) (r : Run), f.runs[i]? = some r → r.exposed strict = true → r.fate ≠ .held →
    Closed S f.store r.job.jobId

variable {S cfg} {P : Platform π} {strict : Bool}

theorem inv_init (hS : S.Lawful P) : Inv S strict (init S) where
  leased j row h := by
    rw [init, hS.get_empty] at h
    cases h
  shown i r h := by cases h
  unique i i' r r' h := by cases h
  closed i r h := by cases h

theorem leased_move {j : String} {op : JobOp π} {result : JobResult} {r r' : Option JobRecord}
    (h : Move P j op result r r')
    (hr : ∀ row, r = some row → (row.leaseOwner.isSome = true ↔ row.state = .running)) :
    ∀ row, r' = some row → (row.leaseOwner.isSome = true ↔ row.state = .running) := by
  intro row hrow
  cases h with
  | same _ _ => exact hr row hrow
  | enqueue _ _ h =>
    cases hrow
    simp [h.leaseOwner, h.state]
  | claim _ h =>
    cases hrow
    simp [h.leaseOwner, h.state]
  | complete _ h =>
    cases hrow
    simp [h.leaseOwner, h.state]
  | fail _ h =>
    cases hrow
    rw [h.leaseOwner, h.state]
    split <;> simp
  | renew _ h =>
    cases hrow
    rw [h.leaseOwner, h.state]
    exact hr _ rfl
  | reclaim _ h =>
    cases hrow
    rw [h.leaseOwner, h.state]
    split <;> simp
  | prune _ => cases hrow

/-- A record that shows a lease is running. -/
theorem Leased.running {store : σ} (h : Leased S store) {j owner : String}
    (howner : S.leaseOwner store j = some owner) :
    ∃ row, S.get store j = some row ∧ row.leaseOwner = some owner ∧ row.state = .running := by
  obtain ⟨row, hrow, hown⟩ := Option.bind_eq_some_iff.mp howner
  exact ⟨row, hrow, hown, (h j row hrow).mp (by rw [hown]; rfl)⟩

/-- Of a closed job only its record can be removed, unless it is enqueued again. -/
theorem closed_move {j : String} {op : JobOp π} {result : JobResult} {r r' : Option JobRecord}
    (h : Move P j op result r r') (hop : ¬ op.Enqueues j)
    (hr : ∀ row, r = some row → (row.leaseOwner.isSome = true ↔ row.state = .running))
    (hclosed : ∀ row, r = some row → IsSettled row) : ∀ row, r' = some row → IsSettled row := by
  have hne : ∀ row, r = some row → row.state ≠ .running := by
    intro row hrow
    rcases hclosed row hrow with hs | hs <;> simp [hs]
  have hnone : ∀ row owner, r = some row → row.leaseOwner ≠ some owner := by
    intro row owner hrow hown
    exact hne row hrow ((hr row hrow).mp (by rw [hown]; rfl))
  intro row hrow
  cases h with
  | same _ _ => exact hclosed row hrow
  | enqueue _ hj _ => exact absurd hj hop
  | claim _ h =>
    rcases hclosed _ rfl with hs | hs <;> rcases h.waiting with hw | hw <;> simp [hs] at hw
  | complete howner _ => exact absurd howner (hnone _ _ rfl)
  | fail howner _ => exact absurd howner (hnone _ _ rfl)
  | renew howner _ => exact absurd howner (hnone _ _ rfl)
  | reclaim hrun _ => exact absurd hrun (hne _ rfl)
  | prune _ => cases hrow

/-- What a call of the store needs so that it takes no job from a handler at work. -/
def Harmless (S : JobStore π σ) (strict voluntary : Bool) (f : State σ) : JobOp π → Prop
  | .enqueue _ newId input => ∀ r ∈ f.runs, r.job.jobId = input.jobId.getD newId →
      r.phase ≠ .handling
  | .fail _ j owner _ _ => Releasable S f owner j
  | .reclaimExpired now => voluntary = false ∧ (strict = true → ∀ r ∈ f.runs,
      S.leaseOwner (S.reclaimExpired f.store now).1 r.job.jobId ≠ some r.worker →
        Releasable S f r.worker r.job.jobId)
  | _ => True

/-! ### Changes of the runs -/

theorem track_eq (store : σ) (voluntary : Bool) (r : Run) :
    (r.fate = .held ∧ S.leaseOwner store r.job.jobId ≠ some r.worker ∧
      r.track S store voluntary = { r with fate := .lost voluntary r.aborted }) ∨
    ((r.fate = .held → S.leaseOwner store r.job.jobId = some r.worker) ∧
      r.track S store voluntary = r) := by
  rw [Run.track]
  split
  · rename_i h
    exact .inl ⟨h.1, h.2, rfl⟩
  · rename_i h
    exact .inr ⟨fun hheld => not_not.mp fun hne => h ⟨hheld, hne⟩, rfl⟩

theorem runs_put {f : State σ} {voluntary : Bool} {store : σ} {i : ℕ} {r' : Run}
    (h : (f.put S voluntary store).runs[i]? = some r') :
    ∃ r, f.runs[i]? = some r ∧ r' = r.track S store voluntary := by
  change (f.runs.map _)[i]? = some r' at h
  rw [List.getElem?_map, Option.map_eq_some_iff] at h
  obtain ⟨r, hr, rfl⟩ := h
  exact ⟨r, hr, rfl⟩

/-- A claim still held after a call was held before, by the same worker and of the same job. -/
theorem held_put {f : State σ} {voluntary : Bool} {store : σ} {i : ℕ} {r' : Run}
    (h : (f.put S voluntary store).runs[i]? = some r') (hheld : r'.fate = .held) :
    f.runs[i]? = some r' ∧ S.leaseOwner store r'.job.jobId = some r'.worker := by
  obtain ⟨r, hr, rfl⟩ := runs_put h
  rcases track_eq (S := S) store voluntary r with ⟨-, -, heq⟩ | ⟨hown, heq⟩
  · rw [heq] at hheld
    cases hheld
  · rw [heq] at hheld ⊢
    exact ⟨hr, hown hheld⟩

/-- A harmless call that takes the claim from a handler at work has closed the job. -/
theorem closed_of_lost (hS : S.Lawful P) {f : State σ} {op : JobOp π} {voluntary : Bool}
    (hop : Harmless S strict voluntary f op) {r : Run} (hmem : r ∈ f.runs) (hwork : r.atWork)
    (hvol : voluntary = true ∨ strict = true) {row : JobRecord}
    (hrow : S.get f.store r.job.jobId = some row) (howner : row.leaseOwner = some r.worker)
    (hrunning : row.state = .running)
    (hown : S.leaseOwner (S.exec f.store op).1 r.job.jobId ≠ some r.worker) :
    Closed S (S.exec f.store op).1 r.job.jobId := by
  intro new hnew
  have hnot : new.leaseOwner ≠ some r.worker := by
    rwa [JobStore.leaseOwner, hnew] at hown
  have hlast : Releasable S f r.worker r.job.jobId → ¬ row.attempt < row.maxAttempts := by
    intro h
    have := h r hmem rfl rfl hwork row hrow
    omega
  have hmove := exec_move hS f.store op r.job.jobId
  rw [hrow, hnew] at hmove
  generalize (S.exec f.store op).2 = result at hmove
  cases hmove with
  | same _ _ => exact absurd howner hnot
  | enqueue _ hj _ => exact absurd hwork.1 (hop r hmem hj.symm)
  | claim _ h =>
    rcases h.waiting with hw | hw <;> simp [hrunning] at hw
  | complete _ h => exact .inl h.state
  | fail ho h =>
    obtain rfl : r.worker = _ := Option.some.inj (howner.symm.trans ho)
    exact .inr (h.state.trans (if_neg (hlast hop)))
  | renew _ h => exact absurd (h.leaseOwner.trans howner) hnot
  | reclaim _ h =>
    have hstrict : strict = true := by
      rcases hvol with hv | hs
      · rw [hop.1] at hv
        cases hv
      · exact hs
    exact .inr (h.state.trans (if_neg (hlast (hop.2 hstrict r hmem hown))))

/-- A call of the store that takes no job from a handler at work keeps the invariant. -/
theorem inv_put (hS : S.Lawful P) {f : State σ} (hf : Inv S strict f) {op : JobOp π}
    {voluntary : Bool} (hop : Harmless S strict voluntary f op) :
    Inv S strict (f.put S voluntary (S.exec f.store op).1) where
  leased j := leased_move (exec_move hS f.store op j) (hf.leased j)
  shown i r h hheld := (held_put h hheld).2
  unique i i' r r' h h' hheld hheld' hj :=
    hf.unique i i' r r' (held_put h hheld).1 (held_put h' hheld').1 hheld hheld' hj
  closed i r' h hexp hlost := by
    obtain ⟨r, hr, rfl⟩ := runs_put h
    have hmem : r ∈ f.runs := List.mem_of_getElem? hr
    have hmove := exec_move hS f.store op r.job.jobId
    rcases track_eq (S := S) (S.exec f.store op).1 voluntary r with ⟨hheld, hown, heq⟩ | ⟨hown, heq⟩
    · -- the call has taken the claim: it has also closed the job
      rw [heq] at hexp ⊢
      simp only [Run.exposed, Bool.and_eq_true, decide_eq_true_eq, Bool.or_eq_true,
        Bool.not_eq_true'] at hexp
      obtain ⟨hphase, hvol, haborted⟩ := hexp
      have hwork : r.atWork := ⟨hphase, haborted, hheld⟩
      obtain ⟨row, hrow, howner, hrunning⟩ := hf.leased.running (hf.shown i r hr hheld)
      exact closed_of_lost (r := r) hS hop hmem hwork hvol hrow howner hrunning hown
    · rw [heq] at hexp hlost ⊢
      have hphase : r.phase = .handling := by
        simp only [Run.exposed, Bool.and_eq_true, decide_eq_true_eq] at hexp
        exact hexp.1
      refine closed_move hmove ?_ (hf.leased _) (hf.closed i r hr hexp hlost)
      cases op with
      | enqueue now newId input => exact fun hj => hop r hmem hj.symm hphase
      | _ => exact id

/-- A step of one run that keeps its claim, and begins the handler only while the claim is held. -/
structure Keeps (g : Run → Run) (r : Run) : Prop where
  worker : (g r).worker = r.worker
  job : (g r).job = r.job
  fate : (g r).fate = r.fate
  phase : (g r).phase = .handling → r.phase = .handling ∨ r.fate = .held

theorem keeps_renewed (ok : Bool) (rest : List Bool) (r : Run) : Keeps (Run.renewed ok rest) r := by
  rcases h : ok || r.lostLease <;> refine ⟨?_, ?_, ?_, fun hp => .inl ?_⟩ <;>
    simp_all [Run.renewed]

theorem inv_modify {f : State σ} (hf : Inv S strict f) {i : ℕ} {g : Run → Run}
    (hg : ∀ r, f.runs[i]? = some r → Keeps g r) : Inv S strict (f.modify i g) := by
  have hold : ∀ (j : ℕ) (r' : Run), (f.modify i g).runs[j]? = some r' → ∃ r, f.runs[j]? = some r ∧
      r'.worker = r.worker ∧ r'.job = r.job ∧ r'.fate = r.fate ∧
      (r'.phase = .handling → r.phase = .handling ∨ r.fate = .held) := by
    intro j r' h
    rcases Indexed.getElem?_modify_some h with ⟨-, hsame⟩ | ⟨rfl, r, hr, rfl⟩
    · exact ⟨r', hsame, rfl, rfl, rfl, .inl⟩
    · have hk := hg r hr
      exact ⟨r, hr, hk.worker, hk.job, hk.fate, hk.phase⟩
  refine ⟨hf.leased, fun j r' h hheld => ?_, fun j j' r r' h h' hheld hheld' hjob => ?_,
    fun j r' h hexp hlost => ?_⟩
  · obtain ⟨r, hr, hw, hj, hfate, -⟩ := hold j r' h
    rw [hw, hj]
    exact hf.shown j r hr (hfate ▸ hheld)
  · obtain ⟨r₁, hr₁, -, hj₁, hfate₁, -⟩ := hold j r h
    obtain ⟨r₂, hr₂, -, hj₂, hfate₂, -⟩ := hold j' r' h'
    exact hf.unique j j' r₁ r₂ hr₁ hr₂ (hfate₁ ▸ hheld) (hfate₂ ▸ hheld') (hj₁ ▸ hj₂ ▸ hjob)
  · obtain ⟨r, hr, -, hj, hfate, hphase⟩ := hold j r' h
    rw [hfate] at hlost
    rw [hj]
    refine hf.closed j r hr ?_ hlost
    simp only [Run.exposed, Bool.and_eq_true, decide_eq_true_eq, hfate] at hexp ⊢
    rcases hphase hexp.1 with hp | hp
    · exact ⟨hp, hexp.2⟩
    · exact absurd hp hlost

/-- A claim adds a run of a job no other run holds. -/
theorem inv_claims (hS : S.Lawful P) {f : State σ} (hf : Inv S strict f) {worker : String}
    {now : ℤ} {job : JobRecord}
    (h : (S.claim f.store now (cfg.claimOptions worker)).2 = some job) :
    Inv S strict { f.put S false (S.claim f.store now (cfg.claimOptions worker)).1 with
      runs := (f.put S false (S.claim f.store now (cfg.claimOptions worker)).1).runs
        ++ [.new worker job] } := by
  have hput := inv_put hS hf (show Harmless S strict false f
    (.claim now (cfg.claimOptions worker)) from trivial)
  obtain ⟨old, hold, hclaimed, hset⟩ := hS.claim_some h
  have hshown : S.leaseOwner (S.claim f.store now (cfg.claimOptions worker)).1 job.jobId =
      some worker := by
    rw [JobStore.leaseOwner, hset, if_pos rfl]
    exact hclaimed.leaseOwner
  -- the job was waiting, so no run held its claim
  have hnone : ∀ (i : ℕ) (r : Run), f.runs[i]? = some r → r.fate = .held →
      r.job.jobId ≠ job.jobId := by
    intro i r hr hheld hj
    obtain ⟨row, hrow, -, hrunning⟩ := hf.leased.running (hf.shown i r hr hheld)
    rw [hj, hold] at hrow
    cases hrow
    rcases hclaimed.waiting with hw | hw <;> simp [hrunning] at hw
  refine ⟨hput.leased, fun i r hr hheld => ?_, fun i i' r r' hr hr' hheld hheld' hj => ?_,
    fun i r hr hexp hlost => ?_⟩
  · rcases Indexed.getElem?_concat.mp hr with hr | ⟨-, rfl⟩
    · exact hput.shown i r hr hheld
    · exact hshown
  · rcases Indexed.getElem?_concat.mp hr with hr | ⟨hi, rfl⟩ <;>
      rcases Indexed.getElem?_concat.mp hr' with hr' | ⟨hi', rfl⟩
    · exact hput.unique i i' r r' hr hr' hheld hheld' hj
    · exact absurd hj (hnone i r (held_put hr hheld).1 hheld)
    · exact absurd hj.symm (hnone i' r' (held_put hr' hheld').1 hheld')
    · exact hi.trans hi'.symm
  · rcases Indexed.getElem?_concat.mp hr with hr | ⟨-, rfl⟩
    · exact hput.closed i r hr hexp hlost
    · exact absurd rfl hlost

theorem inv_fail (hS : S.Lawful P) {f : State σ} (hf : Inv S strict f) {now : ℤ}
    {worker jobId label : String} (hrel : Releasable S f worker jobId) :
    Inv S strict (f.fail S now worker jobId label) :=
  inv_put hS hf (show Harmless S strict true f (.fail now jobId worker label none) from hrel)

/-- Registering a job or stopping its interval is nothing to the invariant. -/
theorem releasable_modify {f : State σ} {i : ℕ} {g : Run → Run}
    (hg : ∀ r, (g r).worker = r.worker ∧ (g r).job = r.job ∧ ((g r).atWork → r.atWork))
    {worker jobId : String} (h : Releasable S f worker jobId) :
    Releasable S (f.modify i g) worker jobId := by
  intro r' hr' hw hj hwork
  obtain ⟨j, hj'⟩ := List.mem_iff_getElem?.mp hr'
  rcases Indexed.getElem?_modify_some hj' with ⟨-, hsame⟩ | ⟨-, r, hr, rfl⟩
  · exact h r' (List.mem_of_getElem? hsame) hw hj hwork
  · obtain ⟨hgw, hgj, hgwork⟩ := hg r
    exact h r (List.mem_of_getElem? hr) (hgw.symm.trans hw) (by rw [← hgj]; exact hj)
      (hgwork hwork)

theorem inv_begin (hS : S.Lawful P) {f : State σ} (hf : Inv S strict f) {i : ℕ} {r : Run}
    {now : ℤ} (hr : f.runs[i]? = some r) (hphase : r.phase = .claimed)
    (hok : if r.starts cfg then r.fate = .held else Releasable S f r.worker r.job.jobId) :
    Inv S strict (begin S cfg f i r now) := by
  rw [begin]
  split
  · rename_i htype
    rw [if_neg fun hstarts => htype hstarts.2.1] at hok
    exact inv_modify (inv_fail hS hf hok) fun _ _ => ⟨rfl, rfl, rfl, by simp⟩
  · rename_i htype
    have hreg : Inv S strict ((f.register i r).modify i fun r => { r with renew := true }) := by
      have hf' : Inv S strict (f.register i r) := ⟨hf.leased, hf.shown, hf.unique, hf.closed⟩
      exact inv_modify hf' fun _ _ => ⟨rfl, rfl, rfl, .inl⟩
    dsimp only
    split
    · rename_i hparses
      rw [if_pos ⟨hphase, not_not.mp htype, hparses⟩] at hok
      refine inv_modify hreg fun r₁ hr₁ => ⟨rfl, rfl, rfl, fun _ => .inr ?_⟩
      rcases Indexed.getElem?_modify_some hr₁ with ⟨hne, -⟩ | ⟨-, r₀, hr₀, rfl⟩
      · exact absurd rfl hne
      · obtain rfl : r = r₀ := Option.some.inj (hr.symm.trans hr₀)
        exact hok
    · rename_i hparses
      rw [if_neg fun hstarts => hparses hstarts.2.2] at hok
      have hreg' : Releasable S (f.register i r) r.worker r.job.jobId := hok
      have hrel := releasable_modify (i := i) (g := fun r => { r with renew := true })
        (fun r => ⟨rfl, rfl, id⟩) hreg'
      exact inv_modify (inv_fail hS hreg hrel) fun _ _ => ⟨rfl, rfl, rfl, by simp⟩

theorem inv_run (hS : S.Lawful P) {f t : State σ} (hf : Inv S strict f) {i : ℕ} {r : Run}
    {event : Event} (hr : f.runs[i]? = some r)
    (hok : Orderly S cfg strict f (.run i event : Action π)) (ht : r.step S cfg f i event = some t) :
    Inv S strict t := by
  cases event with
  | begins now =>
    simp only [Run.step, Option.ite_none_right_eq_some, Option.some.injEq] at ht
    obtain ⟨hphase, rfl⟩ := ht
    exact inv_begin hS hf hr hphase (hok r hr)
  | renews now =>
    simp only [Run.step, Option.ite_none_right_eq_some, Option.some.injEq] at ht
    obtain ⟨-, rfl⟩ := ht
    have hput := inv_put hS hf (show Harmless S strict true f
      (.renew now r.job.jobId r.worker (some (cfg.lease r.worker))) from trivial)
    exact inv_modify hput fun _ _ => ⟨rfl, rfl, rfl, .inl⟩
  | renewed =>
    simp only [Run.step] at ht
    split at ht
    · cases ht
    · cases ht
      exact inv_modify hf fun r₁ _ => keeps_renewed _ _ r₁
  | renewThrows =>
    simp only [Run.step, Option.ite_none_right_eq_some, Option.some.injEq] at ht
    obtain ⟨-, rfl⟩ := ht
    exact inv_modify hf fun _ _ => ⟨rfl, rfl, rfl, .inl⟩
  | returns ok =>
    simp only [Run.step, Option.ite_none_right_eq_some, Option.some.injEq] at ht
    obtain ⟨-, rfl⟩ := ht
    exact inv_modify hf fun _ _ => ⟨rfl, rfl, rfl, by simp⟩
  | finishes now label =>
    simp only [Run.step] at ht
    split at ht
    · cases ht
      split
      · exact inv_modify hf fun _ _ => ⟨rfl, rfl, rfl, by simp⟩
      · have hput := inv_put hS hf (show Harmless S strict true f
          (.complete now r.job.jobId r.worker) from trivial)
        exact inv_modify hput fun _ _ => ⟨rfl, rfl, rfl, by simp⟩
    · rename_i hphase
      cases ht
      exact inv_modify (inv_fail hS hf (hok r hr hphase)) fun _ _ => ⟨rfl, rfl, rfl, by simp⟩
    · cases ht
  | ends =>
    simp only [Run.step, Option.ite_none_right_eq_some, Option.some.injEq] at ht
    obtain ⟨-, rfl⟩ := ht
    have hf' : Inv S strict (f.unregister r.worker r.job.jobId) :=
      ⟨hf.leased, hf.shown, hf.unique, hf.closed⟩
    exact inv_modify hf' fun _ _ => ⟨rfl, rfl, rfl, by simp⟩

theorem inv_step (hS : S.Lawful P) {f t : State σ} (hf : Inv S strict f) {a : Action π}
    (hok : Orderly S cfg strict f a) (ht : step S cfg f a = some t) : Inv S strict t := by
  cases a with
  | enqueue now newId input =>
    cases ht
    exact inv_put hS hf (show Harmless S strict false f (.enqueue now newId input) from hok)
  | reclaimExpired now =>
    cases ht
    exact inv_put hS hf (show Harmless S strict false f (.reclaimExpired now) from ⟨rfl, hok⟩)
  | prune now olderThanMs =>
    cases ht
    exact inv_put hS hf (show Harmless S strict false f (.prune now olderThanMs) from trivial)
  | claims worker now =>
    simp only [step] at ht
    split at ht
    · cases ht
      exact inv_put hS hf (show Harmless S strict false f
        (.claim now (cfg.claimOptions worker)) from trivial)
    · rename_i job hjob
      cases ht
      exact inv_claims hS hf hjob
  | run i event =>
    obtain ⟨r, hr, hstep⟩ := Option.bind_eq_some_iff.mp ht
    exact inv_run hS hf hr hok hstep
  | stops worker =>
    cases ht
    exact ⟨hf.leased, hf.shown, hf.unique, hf.closed⟩
  | givesUp e now =>
    simp only [step, Option.ite_none_right_eq_some, Option.some.injEq] at ht
    obtain ⟨-, rfl⟩ := ht
    have hf' : Inv S strict ({ f with pending := f.pending.erase e }.unregister e.worker e.jobId) :=
      ⟨hf.leased, hf.shown, hf.unique, hf.closed⟩
    have hmod := inv_modify hf' (i := e.run) (g := fun r => { r with renew := false })
      fun _ _ => ⟨rfl, rfl, rfl, .inl⟩
    have hrel : Releasable S ({ f with pending := f.pending.erase e }.unregister e.worker e.jobId)
        e.worker e.jobId := hok
    exact inv_fail hS hmod (releasable_modify (g := fun r => { r with renew := false })
      (fun r => ⟨rfl, rfl, id⟩) hrel)

/-- The invariant makes an orderly beginning one that no other worker's handler is exposed to. -/
theorem startsAlone_of_inv {f : State σ} (hf : Inv S strict f) {a : Action π}
    (hok : Orderly S cfg strict f a) : StartsAlone cfg strict f a := by
  cases a with
  | run i event =>
    cases event with
    | begins now =>
      intro r hr hstarts r' hr' hj hw
      have hheld : r.fate = .held := by
        have := hok r hr
        rwa [if_pos hstarts] at this
      obtain ⟨i', hi'⟩ := List.mem_iff_getElem?.mp hr'
      by_contra hexp
      rw [Bool.not_eq_false] at hexp
      rcases eq_or_ne r'.fate .held with hheld' | hlost
      · obtain rfl := hf.unique i i' r r' hr hi' hheld hheld' hj.symm
        obtain rfl : r = r' := Option.some.inj (Option.mem_def.mp hr ▸ hi')
        exact hw rfl
      · obtain ⟨row, hrow, -, hrunning⟩ := hf.leased.running (hf.shown i r hr hheld)
        rcases hf.closed i' r' hi' hexp hlost row (hj ▸ hrow) with hs | hs <;>
          simp [hrunning] at hs
    | _ => trivial
  | _ => trivial

theorem startsAlone_of_lawful (hS : S.Lawful P) {as : List (Action π)}
    (h : Along (step S cfg) (Orderly S cfg strict) (init S) as) :
    Along (step S cfg) (StartsAlone cfg strict) (init S) as :=
  along_of_along (fun _ _ _ hf hok ht => inv_step hS hf hok ht)
    (fun _ _ hf hok => startsAlone_of_inv hf hok) as (inv_init hS) h

/-- Over every orderly interleaving of any number of workers on either store: a worker starts a
    handler only when every handler of that job on another worker has returned, or was aborted before
    its lease was given up voluntarily (strictly: before it was given up at all). -/
theorem one_live_handler (P : Platform π) (cfg : Config) (strict : Bool) {as : List (Action π)} :
    (Along (step (inMemory P) cfg) (Orderly (inMemory P) cfg strict) (init (inMemory P)) as →
      Along (step (inMemory P) cfg) (StartsAlone cfg strict) (init (inMemory P)) as) ∧
    (Along (step (sqlite P) cfg) (Orderly (sqlite P) cfg strict) (init (sqlite P)) as →
      Along (step (sqlite P) cfg) (StartsAlone cfg strict) (init (sqlite P)) as) :=
  ⟨startsAlone_of_lawful (inMemory_lawful P), startsAlone_of_lawful (sqlite_lawful P)⟩

/-! ### Two runs -/

instance (S : JobStore π σ) (cfg : Config) (strict : Bool) (f : State σ) :
    ∀ a, Decidable (Orderly S cfg strict f a)
  | .enqueue .. => inferInstanceAs (Decidable (∀ r ∈ f.runs, _ → _))
  | .reclaimExpired .. => inferInstanceAs (Decidable (_ → ∀ r ∈ f.runs, _ → Releasable S f _ _))
  | .run i (.begins _) => inferInstanceAs (Decidable (∀ r ∈ f.runs[i]?, if r.starts cfg then
      r.fate = .held else Releasable S f r.worker r.job.jobId))
  | .run i (.finishes _ _) =>
    inferInstanceAs (Decidable (∀ r ∈ f.runs[i]?, _ → Releasable S f r.worker r.job.jobId))
  | .givesUp .. => inferInstanceAs (Decidable (Releasable S f _ _))
  | .prune .. | .claims .. | .stops .. | .run _ (.renews ..) | .run _ .renewed
  | .run _ .renewThrows | .run _ (.returns ..) | .run _ .ends => .isTrue trivial

instance (cfg : Config) (strict : Bool) (f : State σ) :
    ∀ a : Action π, Decidable (StartsAlone cfg strict f a)
  | .run i (.begins _) =>
    inferInstanceAs (Decidable (∀ r ∈ f.runs[i]?, r.starts cfg → ∀ r' ∈ f.runs, _))
  | .enqueue .. | .reclaimExpired .. | .prune .. | .claims .. | .stops .. | .givesUp ..
  | .run _ (.renews ..) | .run _ .renewed | .run _ .renewThrows | .run _ (.returns ..)
  | .run _ (.finishes ..) | .run _ .ends => .isTrue trivial

/-- Every worker runs jobs of type `t` and reads every payload. -/
def sameForAll : Config := ⟨fun _ => ["t"], fun _ => none, fun _ => none, fun _ => true⟩

/-- Job `j`, started by worker `a`. -/
def startedByA : List (Action Unit) :=
  [.enqueue 0 "j" { type := "t", payload := () }, .claims "a" 1, .run 0 (.begins 1)]

/-- The handler of `a` throws, and worker `b` runs the second attempt. -/
def retriedByB : List (Action Unit) :=
  startedByA ++ [.run 0 (.returns false), .run 0 (.finishes 2 "E"), .run 0 .ends, .claims "b" 3,
    .run 1 (.begins 3)]

theorem one_live_handler_retried :
    Along (step (inMemory noPayload) sameForAll) (StartsAlone sameForAll true)
      (init (inMemory noPayload)) retriedByB ∧
    Along (step (sqlite noPayload) sameForAll) (StartsAlone sameForAll true)
      (init (sqlite noPayload)) retriedByB :=
  ⟨(one_live_handler noPayload sameForAll true).1 (by decide),
    (one_live_handler noPayload sameForAll true).2 (by decide)⟩

/-- `stop` of worker `a` runs out of time while the handler of `a` is at work, and releases the lease;
    worker `b` claims the job and starts it. -/
def takenByB : List (Action Unit) :=
  startedByA ++ [.stops "a", .givesUp ⟨"a", "j", 0⟩ 2, .claims "b" 3, .run 1 (.begins 3)]

theorem stop_hands_over_a_running_job :
    ¬ Along (step (inMemory noPayload) sameForAll) (StartsAlone sameForAll false)
      (init (inMemory noPayload)) takenByB ∧
    ¬ Along (step (sqlite noPayload) sameForAll) (StartsAlone sameForAll false)
      (init (sqlite noPayload)) takenByB := ⟨by decide, by decide⟩

end Remembra.Worker.Fleet
