import Remembra.Jobs.Memory
import Remembra.Jobs.Sqlite

/-! What a job store is for, whichever way it keeps its jobs: the laws of each call in terms of the
    records `get` shows. A store is known by them alone, so what follows from the laws holds of the
    map and of the table alike. `exec_move` sums them up as what one call can do to one job. -/

namespace Remembra.Jobs

/-! ### Changes of one record -/

/-- Nothing but the state, the lease, the clock readings and the error label changed. -/
structure SameJob (old new : JobRecord) : Prop where
  jobId : new.jobId = old.jobId
  attempt : new.attempt = old.attempt
  maxAttempts : new.maxAttempts = old.maxAttempts

/-- The record an accepted `enqueue` stores. -/
structure Fresh {π : Type*} (input : EnqueueInput π) (new : JobRecord) : Prop where
  attempt : new.attempt = 0
  maxAttempts : new.maxAttempts = input.maxAttempts.getD defaultMaxAttempts
  state : new.state = .queued
  leaseOwner : new.leaseOwner = none

/-- The job was waiting and now runs for `owner`, one attempt further. -/
structure Claimed (owner : String) (old new : JobRecord) : Prop where
  waiting : old.state = .queued ∨ old.state = .retrying
  jobId : new.jobId = old.jobId
  attempt : new.attempt = old.attempt + 1
  maxAttempts : new.maxAttempts = old.maxAttempts
  state : new.state = .running
  leaseOwner : new.leaseOwner = some owner

structure Completed (old new : JobRecord) : Prop where
  same : SameJob old new
  state : new.state = .completed
  leaseOwner : new.leaseOwner = none

/-- The lease was given up: the job waits again while attempts remain. -/
structure Released (old new : JobRecord) : Prop where
  same : SameJob old new
  state : new.state = if old.attempt < old.maxAttempts then .retrying else .failed
  leaseOwner : new.leaseOwner = none

structure Renewed (old new : JobRecord) : Prop where
  same : SameJob old new
  state : new.state = old.state
  leaseOwner : new.leaseOwner = old.leaseOwner

variable {π σ : Type*}

/-- The store shows `r` for `j` and is otherwise as before. -/
def JobStore.Sets (S : JobStore π σ) (s t : σ) (j : String) (r : Option JobRecord) : Prop :=
  ∀ j', S.get t j' = if j' = j then r else S.get s j'

/-- The owner the record shows, if it shows a lease. -/
def JobStore.leaseOwner (S : JobStore π σ) (s : σ) (j : String) : Option String :=
  (S.get s j).bind (·.leaseOwner)

/-- The call found the job leased to `owner` and changed its record as `change` says. -/
def JobStore.Leased (S : JobStore π σ) (change : JobRecord → JobRecord → Prop) (s t : σ)
    (j owner : String) : Prop :=
  ∃ old new, S.get s j = some old ∧ old.leaseOwner = some owner ∧ change old new ∧
    S.Sets s t j (some new)

/-- The laws of a job store. -/
structure JobStore.Lawful (P : Platform π) (S : JobStore π σ) : Prop where
  get_empty (j : String) : S.get S.empty j = none
  jobId_of_get {s : σ} {j : String} {job : JobRecord} : S.get s j = some job → job.jobId = j
  enqueue_error {s : σ} {now : ℤ} {newId : String} {input : EnqueueInput π} {e : JobError} :
    (S.enqueue s now newId input).2 = .error e → (S.enqueue s now newId input).1 = s
  enqueue_ok {s : σ} {now : ℤ} {newId j : String} {input : EnqueueInput π} :
    (S.enqueue s now newId input).2 = .ok j → j = input.jobId.getD newId ∧
      ∃ new, Fresh input new ∧ S.Sets s (S.enqueue s now newId input).1 j (some new)
  claim_none {s : σ} {now : ℤ} {options : ClaimOptions} :
    (S.claim s now options).2 = none → (S.claim s now options).1 = s
  claim_some {s : σ} {now : ℤ} {options : ClaimOptions} {job : JobRecord} :
    (S.claim s now options).2 = some job → ∃ old, S.get s job.jobId = some old ∧
      Claimed (options.owner.getD P.defaultLockOwner) old job ∧
      S.Sets s (S.claim s now options).1 job.jobId (some job)
  complete_true {s : σ} {now : ℤ} {j owner : String} : (S.complete s now j owner).2 = true →
    S.Leased Completed s (S.complete s now j owner).1 j owner
  complete_false {s : σ} {now : ℤ} {j owner : String} : (S.complete s now j owner).2 = false →
    (S.complete s now j owner).1 = s ∧ ∀ old, S.get s j = some old → old.leaseOwner ≠ some owner
  fail_true {s : σ} {now : ℤ} {j owner label : String} {retryAfterMs : Option ℤ} :
    (S.fail s now j owner label retryAfterMs).2 = true →
      S.Leased Released s (S.fail s now j owner label retryAfterMs).1 j owner
  fail_false {s : σ} {now : ℤ} {j owner label : String} {retryAfterMs : Option ℤ} :
    (S.fail s now j owner label retryAfterMs).2 = false →
      (S.fail s now j owner label retryAfterMs).1 = s ∧
        ∀ old, S.get s j = some old → old.leaseOwner ≠ some owner
  renew_true {s : σ} {now : ℤ} {j owner : String} {leaseMs : Option ℤ} :
    (S.renew s now j owner leaseMs).2 = true →
      S.Leased Renewed s (S.renew s now j owner leaseMs).1 j owner
  renew_false {s : σ} {now : ℤ} {j owner : String} {leaseMs : Option ℤ} :
    (S.renew s now j owner leaseMs).2 = false → (S.renew s now j owner leaseMs).1 = s
  reclaimExpired (s : σ) (now : ℤ) (j : String) :
    S.get (S.reclaimExpired s now).1 j = S.get s j ∨ ∃ old new, S.get s j = some old ∧
      old.state = .running ∧ Released old new ∧ S.get (S.reclaimExpired s now).1 j = some new
  prune (s : σ) (now olderThanMs : ℤ) (j : String) :
    S.get (S.prune s now olderThanMs).1 j = S.get s j ∨ ∃ old, S.get s j = some old ∧
      Memory.isTerminal old.state = true ∧ S.get (S.prune s now olderThanMs).1 j = none

/-! ### The in-memory store obeys the laws -/

section Memory
variable (P : Platform π)

theorem Memory.enqueue_cases (jobs : Memory.JobMap) (now : ℤ) (newId : String)
    (input : EnqueueInput π) :
    (∃ e, Memory.enqueue P jobs now newId input = (jobs, .error e)) ∨
      ∃ new, Fresh input new ∧ new.jobId = input.jobId.getD newId ∧
        Memory.enqueue P jobs now newId input = (jobs.upsert new, .ok new.jobId) := by
  unfold Memory.enqueue
  rcases normalizeTenantId P input.tenantId with e | tenantId
  · exact .inl ⟨e, rfl⟩
  rcases normalizeJobType input.type with e | type
  · exact .inl ⟨e, rfl⟩
  rcases encodeJobPayload P input.payload with e | payload
  · exact .inl ⟨e, rfl⟩
  · exact .inr ⟨_, ⟨rfl, rfl, rfl, rfl⟩, rfl, rfl⟩

theorem Memory.claim_laws {jobs : Memory.JobMap} {now : ℤ} {options : ClaimOptions}
    {job : JobRecord} (h : (Memory.claim P jobs now options).2 = some job) :
    ∃ old, jobs.get job.jobId = some old ∧
      Claimed (options.owner.getD P.defaultLockOwner) old job ∧
      (inMemory P).Sets jobs (Memory.claim P jobs now options).1 job.jobId (some job) := by
  unfold Memory.claim at h ⊢
  rcases hmin : firstMin (Memory.older P) _ with _ | candidate <;> rw [hmin] at h
  · cases h
  · obtain rfl := Option.some.inj h
    obtain ⟨hmem, hclaimable⟩ := List.mem_filter.mp (firstMin_mem hmin)
    refine ⟨candidate, Table.get_of_mem hmem, ⟨?_, rfl, rfl, rfl, rfl, rfl⟩, fun j' => ?_⟩
    · simp only [Memory.claimable, Bool.and_eq_true, Bool.or_eq_true, decide_eq_true_eq]
        at hclaimable
      exact hclaimable.1.1.1
    · exact Table.get_upsert ..

theorem Memory.get_put (jobs : Memory.JobMap) {j : String} {f : JobRecord → JobRecord}
    (hf : ∀ r, (f r).jobId = r.jobId) {old : JobRecord} (hold : jobs.get j = some old)
    (j' : String) : (Memory.put jobs j f hf).get j' = if j' = j then some (f old)
      else jobs.get j' := by
  rcases jobs.updateWhere_of_key (·.jobId = j) f hf j (fun r hr => by simpa using hr)
    with ⟨old', hold', -, -, hget⟩ | ⟨hnone, -⟩
  · obtain rfl : old' = old := Option.some.inj (hold'.symm.trans hold)
    exact hget j'
  · have := hnone old hold
    rw [decide_eq_false_iff_not] at this
    exact absurd (Table.key_of_get hold) this

/-- The calls on a claim: `complete`, `fail` and `renew` all look the record up, compare the owner
    and put the changed record back. -/
theorem Memory.leased_laws {jobs : Memory.JobMap} {j owner : String} {f : JobRecord → JobRecord}
    (hf : ∀ r, (f r).jobId = r.jobId) {change : JobRecord → JobRecord → Prop}
    (hchange : ∀ r, change r (f r)) {r : Memory.JobMap × Bool}
    (hr : r = match jobs.get j with
      | none => (jobs, false)
      | some job => if job.leaseOwner ≠ some owner then (jobs, false)
        else (Memory.put jobs j f hf, true)) :
    (r.2 = true → (inMemory P).Leased change jobs r.1 j owner) ∧
      (r.2 = false → r.1 = jobs ∧ ∀ old, jobs.get j = some old → old.leaseOwner ≠ some owner) := by
  subst hr
  rcases hget : jobs.get j with _ | old <;> dsimp only
  · exact ⟨by rintro ⟨⟩, fun _ => ⟨rfl, by rintro old ⟨⟩⟩⟩
  · rcases eq_or_ne old.leaseOwner (some owner) with howner | howner
    · rw [if_neg (not_not_intro howner)]
      exact ⟨fun _ => ⟨old, f old, hget, howner, hchange old, Memory.get_put jobs hf hget⟩,
        by rintro ⟨⟩⟩
    · rw [if_pos howner]
      exact ⟨by rintro ⟨⟩, fun _ => ⟨rfl, by rintro _ ⟨⟩; exact howner⟩⟩

theorem Memory.completed_is (now : ℤ) (job : JobRecord) : Completed job (Memory.completed now job) :=
  ⟨⟨rfl, rfl, rfl⟩, rfl, rfl⟩

theorem Memory.failed_is (now : ℤ) (label : String) (retryAfterMs : ℤ) (job : JobRecord) :
    Released job (Memory.failed now label retryAfterMs job) := ⟨⟨rfl, rfl, rfl⟩, rfl, rfl⟩

theorem Memory.renewed_is (now leaseMs : ℤ) (job : JobRecord) :
    Renewed job (Memory.renewed now leaseMs job) := ⟨⟨rfl, rfl, rfl⟩, rfl, rfl⟩

theorem Memory.reclaimed_is (now : ℤ) (job : JobRecord) : Released job (Memory.reclaimed now job) :=
  ⟨⟨rfl, rfl, rfl⟩, rfl, rfl⟩

theorem inMemory_lawful : (inMemory P).Lawful P where
  get_empty _ := rfl
  jobId_of_get := Table.key_of_get
  enqueue_error {s now newId input e} h := by
    rcases Memory.enqueue_cases P s now newId input with ⟨e, he⟩ | ⟨new, -, -, hnew⟩
    · exact congrArg Prod.fst he
    · rw [show (inMemory P).enqueue s now newId input = _ from hnew] at h
      cases h
  enqueue_ok {s now newId j input} h := by
    rcases Memory.enqueue_cases P s now newId input with ⟨e, he⟩ | ⟨new, hfresh, hj, hnew⟩
    · rw [show (inMemory P).enqueue s now newId input = _ from he] at h
      cases h
    · rw [show (inMemory P).enqueue s now newId input = _ from hnew] at h ⊢
      cases h
      exact ⟨hj, new, hfresh, fun j' => Table.get_upsert ..⟩
  claim_none {s now options} h := by
    simp only [inMemory, Memory.claim] at h ⊢
    split <;> simp_all
  claim_some := Memory.claim_laws P
  complete_true h := (Memory.leased_laws P (Memory.completed_jobId _) (Memory.completed_is _) rfl).1 h
  complete_false h :=
    (Memory.leased_laws P (Memory.completed_jobId _) (Memory.completed_is _) rfl).2 h
  fail_true h := (Memory.leased_laws P (Memory.failed_jobId _ _ _) (Memory.failed_is _ _ _) rfl).1 h
  fail_false h := (Memory.leased_laws P (Memory.failed_jobId _ _ _) (Memory.failed_is _ _ _) rfl).2 h
  renew_true h := (Memory.leased_laws P (Memory.renewed_jobId _ _) (Memory.renewed_is _ _) rfl).1 h
  renew_false h :=
    ((Memory.leased_laws P (Memory.renewed_jobId _ _) (Memory.renewed_is _ _) rfl).2 h).1
  reclaimExpired s now j := by
    simp only [inMemory, Memory.reclaimExpired, Table.get_updateWhere]
    rcases hget : s.get j with _ | old
    · exact .inl rfl
    · rw [Option.map_some]
      split
      · rename_i hexp
        refine .inr ⟨old, _, rfl, ?_, Memory.reclaimed_is now old, rfl⟩
        simp only [Memory.isExpired, Bool.and_eq_true, decide_eq_true_eq] at hexp
        exact hexp.1
      · exact .inl rfl
  prune s now olderThanMs j := by
    simp only [inMemory, Memory.prune, Table.get_deleteWhere]
    rcases hget : s.get j with _ | old
    · exact .inl rfl
    · cases hp : Memory.isPrunable now olderThanMs old with
      | false => exact .inl (by simp [Option.filter, hp])
      | true =>
        simp only [Memory.isPrunable, Bool.and_eq_true] at hp
        exact .inr ⟨old, rfl, hp.1, by simp [Option.filter, Memory.isPrunable, hp.1, hp.2]⟩

end Memory

/-! ### The SQLite store obeys the laws -/

section Sqlite
variable (P : Platform π)

theorem Sqlite.sets_of_get {jobs jobs' : Sqlite.JobTable} {j : String} {row : Sqlite.JobRow}
    (h : ∀ j', jobs'.get j' = if j' = j then some row else jobs.get j') :
    (sqlite P).Sets jobs jobs' j (some (Sqlite.toRecord row)) := by
  intro j'
  change (jobs'.get j').map Sqlite.toRecord = _
  rw [h j']
  split <;> rfl

theorem Sqlite.enqueue_cases (jobs : Sqlite.JobTable) (now : ℤ) (newId : String)
    (input : EnqueueInput π) :
    (∃ e, Sqlite.enqueue P jobs now newId input = (jobs, .error e)) ∨
      ∃ row jobs', Fresh input (Sqlite.toRecord row) ∧ row.jobId = input.jobId.getD newId ∧
        jobs.insert row = some jobs' ∧
        Sqlite.enqueue P jobs now newId input = (jobs', .ok row.jobId) := by
  unfold Sqlite.enqueue
  rcases normalizeTenantId P input.tenantId with e | tenantId
  · exact .inl ⟨e, rfl⟩
  rcases normalizeJobType input.type with e | type
  · exact .inl ⟨e, rfl⟩
  rcases encodeJobPayload P input.payload with e | payload
  · exact .inl ⟨e, rfl⟩
  dsimp only
  split
  · exact .inl ⟨_, rfl⟩
  · rename_i jobs' hinsert
    exact .inr ⟨_, jobs', ⟨rfl, rfl, rfl, rfl⟩, rfl, hinsert, rfl⟩

theorem Sqlite.claim_cases (jobs : Sqlite.JobTable) (now : ℤ) (options : ClaimOptions) :
    Sqlite.claim P jobs now options = (jobs, none) ∨
      ∃ row, row ∈ jobs.rows ∧ Sqlite.claimableWhere now options row = true ∧
        (Sqlite.claim P jobs now options).2 =
          some (Sqlite.toRecord (Sqlite.setClaimed P now options row)) ∧
        ∀ j', (Sqlite.claim P jobs now options).1.get j' =
          if j' = row.jobId then some (Sqlite.setClaimed P now options row)
          else jobs.get j' := by
  unfold Sqlite.claim
  rcases hmin : firstMin (Sqlite.orderBy P) _ with _ | row
  · exact .inl rfl
  · obtain ⟨hmem, hwhere⟩ := List.mem_filter.mp (firstMin_mem hmin)
    refine .inr ⟨row, hmem, hwhere, ?_⟩
    dsimp only
    rcases jobs.updateWhere_of_key (fun r => decide (r.jobId = row.jobId))
      (Sqlite.setClaimed P now options) (Sqlite.setClaimed_jobId P now options) row.jobId
      (fun r hr => of_decide_eq_true hr) with ⟨old, hold, -, -, hget⟩ | ⟨hnone, -⟩
    · obtain rfl : old = row := Option.some.inj (hold.symm.trans (Table.get_of_mem hmem))
      exact ⟨by rw [hget, if_pos rfl]; rfl, hget⟩
    · exact absurd (hnone row (Table.get_of_mem hmem)) (by simp)

theorem Sqlite.claim_laws {jobs : Sqlite.JobTable} {now : ℤ} {options : ClaimOptions}
    {job : JobRecord} (h : (Sqlite.claim P jobs now options).2 = some job) :
    ∃ old, (sqlite P).get jobs job.jobId = some old ∧
      Claimed (options.owner.getD P.defaultLockOwner) old job ∧
      (sqlite P).Sets jobs (Sqlite.claim P jobs now options).1 job.jobId (some job) := by
  rcases Sqlite.claim_cases P jobs now options with hnone | ⟨row, hmem, hwhere, hjob, hget⟩
  · rw [hnone] at h
    cases h
  · obtain rfl := Option.some.inj (hjob.symm.trans h)
    refine ⟨Sqlite.toRecord row, congrArg (Option.map Sqlite.toRecord) (Table.get_of_mem hmem),
      ⟨?_, rfl, rfl, rfl, rfl, rfl⟩, Sqlite.sets_of_get P hget⟩
    simp only [Sqlite.claimableWhere, Bool.and_eq_true, Bool.or_eq_true, decide_eq_true_eq]
      at hwhere
    exact hwhere.1.1.1

/-- `complete`, `fail` and `renew` are each an `UPDATE` whose `WHERE` names the job and the owner,
    and report whether it changed one row. -/
theorem Sqlite.leased_laws {jobs : Sqlite.JobTable} {j owner : String}
    {p : Sqlite.JobRow → Bool} (hp : ∀ row, p row = true → Sqlite.heldWhere j owner row = true)
    {f : Sqlite.JobRow → Sqlite.JobRow} (hf : ∀ row, (f row).jobId = row.jobId)
    {change : JobRecord → JobRecord → Prop}
    (hchange : ∀ row, change (Sqlite.toRecord row) (Sqlite.toRecord (f row)))
    {r : Sqlite.JobTable × Bool}
    (hr : r = ((jobs.updateWhere p f hf).1, decide ((jobs.updateWhere p f hf).2 = 1))) :
    (r.2 = true → (sqlite P).Leased change jobs r.1 j owner) ∧
      (r.2 = false → r.1 = jobs ∧ ∀ row, jobs.get j = some row → p row = false) := by
  have hheld : ∀ row, p row = true → row.jobId = j ∧ row.leaseOwner = some owner := by
    intro row hrow
    simpa [Sqlite.heldWhere] using hp row hrow
  subst hr
  rcases jobs.updateWhere_of_key p f hf j (fun row hrow => (hheld row hrow).1)
    with ⟨row, hrow, hprow, hone, hget⟩ | ⟨hnone, hsame⟩
  · refine ⟨fun _ => ⟨_, _, congrArg (Option.map Sqlite.toRecord) hrow, (hheld row hprow).2,
      hchange row, Sqlite.sets_of_get P hget⟩, fun h => ?_⟩
    simp [hone] at h
  · refine ⟨fun h => ?_, fun _ => ⟨congrArg Prod.fst hsame, hnone⟩⟩
    simp [hsame] at h

theorem Sqlite.not_leased {jobs : Sqlite.JobTable} {j owner : String}
    (h : ∀ row, jobs.get j = some row → Sqlite.heldWhere j owner row = false) :
    ∀ old, (sqlite P).get jobs j = some old → old.leaseOwner ≠ some owner := by
  intro old hold howner
  obtain ⟨row, hrow, rfl⟩ := Option.map_eq_some_iff.mp hold
  have hj : row.jobId = j := Table.key_of_get hrow
  have := h row hrow
  rw [Sqlite.heldWhere, hj, show row.leaseOwner = some owner from howner] at this
  simp at this

theorem Sqlite.setCompleted_is (now : ℤ) (row : Sqlite.JobRow) :
    Completed (Sqlite.toRecord row) (Sqlite.toRecord (Sqlite.setCompleted now row)) :=
  ⟨⟨rfl, rfl, rfl⟩, rfl, rfl⟩

theorem Sqlite.setFailed_is (now : ℤ) (label : String) (retryAfterMs : ℤ) (row : Sqlite.JobRow) :
    Released (Sqlite.toRecord row)
      (Sqlite.toRecord (Sqlite.setFailed now label retryAfterMs row)) :=
  ⟨⟨rfl, rfl, rfl⟩, rfl, rfl⟩

theorem Sqlite.setRenewed_is (now leaseMs : ℤ) (row : Sqlite.JobRow) :
    Renewed (Sqlite.toRecord row) (Sqlite.toRecord (Sqlite.setRenewed now leaseMs row)) :=
  ⟨⟨rfl, rfl, rfl⟩, rfl, rfl⟩

theorem Sqlite.setReclaimed_is (now : ℤ) (row : Sqlite.JobRow) :
    Released (Sqlite.toRecord row) (Sqlite.toRecord (Sqlite.setReclaimed now row)) :=
  ⟨⟨rfl, rfl, rfl⟩, rfl, rfl⟩

theorem Sqlite.renewableWhere_held (now : ℤ) (j owner : String) (row : Sqlite.JobRow)
    (h : Sqlite.renewableWhere now j owner row = true) : Sqlite.heldWhere j owner row = true := by
  rw [Sqlite.renewableWhere, Bool.and_eq_true] at h
  exact h.1

theorem sqlite_lawful : (sqlite P).Lawful P where
  get_empty _ := rfl
  jobId_of_get h := by
    obtain ⟨row, hrow, rfl⟩ := Option.map_eq_some_iff.mp h
    exact (Table.key_of_get hrow : row.jobId = _)
  enqueue_error {s now newId input e} h := by
    rcases Sqlite.enqueue_cases P s now newId input with ⟨e, he⟩ | ⟨row, s', -, -, -, hnew⟩
    · exact congrArg Prod.fst he
    · rw [show (sqlite P).enqueue s now newId input = _ from hnew] at h
      cases h
  enqueue_ok {s now newId j input} h := by
    rcases Sqlite.enqueue_cases P s now newId input
      with ⟨e, he⟩ | ⟨row, s', hfresh, hj, hinsert, hnew⟩
    · rw [show (sqlite P).enqueue s now newId input = _ from he] at h
      cases h
    · rw [show (sqlite P).enqueue s now newId input = _ from hnew] at h ⊢
      cases h
      exact ⟨hj, _, hfresh, Sqlite.sets_of_get P (Table.get_insert hinsert)⟩
  claim_none {s now options} h := by
    rcases Sqlite.claim_cases P s now options with hnone | ⟨row, -, -, hjob, -⟩
    · exact congrArg Prod.fst hnone
    · rw [show ((sqlite P).claim s now options).2 = _ from hjob] at h
      cases h
  claim_some := Sqlite.claim_laws P
  complete_true h := (Sqlite.leased_laws P (fun _ => id) (Sqlite.setCompleted_jobId _)
    (Sqlite.setCompleted_is _) rfl).1 h
  complete_false h :=
    have held := (Sqlite.leased_laws P (fun _ => id) (Sqlite.setCompleted_jobId _)
      (Sqlite.setCompleted_is _) rfl).2 h
    ⟨held.1, Sqlite.not_leased P held.2⟩
  fail_true h := (Sqlite.leased_laws P (fun _ => id) (Sqlite.setFailed_jobId _ _ _)
    (Sqlite.setFailed_is _ _ _) rfl).1 h
  fail_false h :=
    have held := (Sqlite.leased_laws P (fun _ => id) (Sqlite.setFailed_jobId _ _ _)
      (Sqlite.setFailed_is _ _ _) rfl).2 h
    ⟨held.1, Sqlite.not_leased P held.2⟩
  renew_true h := (Sqlite.leased_laws P (Sqlite.renewableWhere_held _ _ _)
    (Sqlite.setRenewed_jobId _ _) (Sqlite.setRenewed_is _ _) rfl).1 h
  renew_false h := ((Sqlite.leased_laws P (Sqlite.renewableWhere_held _ _ _)
    (Sqlite.setRenewed_jobId _ _) (Sqlite.setRenewed_is _ _) rfl).2 h).1
  reclaimExpired s now j := by
    change ((Sqlite.reclaimExpired s now).1.get j).map _ = (s.get j).map _ ∨ ∃ old new,
      (s.get j).map _ = some old ∧ _ ∧ _ ∧ ((Sqlite.reclaimExpired s now).1.get j).map _ = some new
    rw [Sqlite.reclaimExpired, Table.get_updateWhere]
    rcases s.get j with _ | row
    · exact .inl rfl
    · rw [Option.map_some]
      split
      · rename_i hexp
        refine .inr ⟨_, _, rfl, ?_, Sqlite.setReclaimed_is now row, rfl⟩
        simp only [Sqlite.expiredWhere, Bool.and_eq_true, decide_eq_true_eq] at hexp
        exact hexp.1
      · exact .inl rfl
  prune s now olderThanMs j := by
    change ((Sqlite.prune s now olderThanMs).1.get j).map _ = (s.get j).map _ ∨ ∃ old,
      (s.get j).map _ = some old ∧ _ ∧ ((Sqlite.prune s now olderThanMs).1.get j).map _ = none
    rw [Sqlite.prune, Table.get_deleteWhere]
    rcases s.get j with _ | row
    · exact .inl rfl
    · cases hp : Sqlite.prunableWhere now olderThanMs row with
      | false => exact .inl (by simp [Option.filter, hp])
      | true =>
        refine .inr ⟨_, rfl, ?_, by simp [Option.filter, hp]⟩
        simp only [Sqlite.prunableWhere, Bool.and_eq_true, Bool.or_eq_true,
          decide_eq_true_eq] at hp
        rcases hp.1 with (h | h) | h <;> simp [Sqlite.toRecord, Memory.isTerminal, h]

end Sqlite

/-! ### What one call does to one job -/

section Move
variable {P : Platform π} {S : JobStore π σ}

/-- What a call with its result can do to what `get` shows for the job `j`. -/
inductive Move (P : Platform π) (j : String) :
    JobOp π → JobResult → Option JobRecord → Option JobRecord → Prop
  | same {op : JobOp π} {result : JobResult} (r : Option JobRecord)
      (hclaim : ∀ job, result = .claimed (some job) → job.jobId ≠ j) : Move P j op result r r
  | enqueue {now : ℤ} {newId : String} {input : EnqueueInput π} (r : Option JobRecord)
      {new : JobRecord} (hj : input.jobId.getD newId = j) (h : Fresh input new) :
      Move P j (.enqueue now newId input) (.enqueued (.ok j)) r (some new)
  | claim {now : ℤ} {options : ClaimOptions} {old new : JobRecord} (hj : new.jobId = j)
      (h : Claimed (options.owner.getD P.defaultLockOwner) old new) :
      Move P j (.claim now options) (.claimed (some new)) (some old) (some new)
  | complete {now : ℤ} {owner : String} {old new : JobRecord}
      (howner : old.leaseOwner = some owner) (h : Completed old new) :
      Move P j (.complete now j owner) (.flag true) (some old) (some new)
  | fail {now : ℤ} {owner label : String} {retryAfterMs : Option ℤ} {old new : JobRecord}
      (howner : old.leaseOwner = some owner) (h : Released old new) :
      Move P j (.fail now j owner label retryAfterMs) (.flag true) (some old) (some new)
  | renew {now : ℤ} {owner : String} {leaseMs : Option ℤ} {old new : JobRecord}
      (howner : old.leaseOwner = some owner) (h : Renewed old new) :
      Move P j (.renew now j owner leaseMs) (.flag true) (some old) (some new)
  | reclaim {now : ℤ} {n : ℕ} {old new : JobRecord} (hrunning : old.state = .running)
      (h : Released old new) :
      Move P j (.reclaimExpired now) (.count n) (some old) (some new)
  | prune {now olderThanMs : ℤ} {n : ℕ} {old : JobRecord}
      (hterminal : Memory.isTerminal old.state = true) :
      Move P j (.prune now olderThanMs) (.count n) (some old) none

/-- A call on a claim of `j'` changes nothing else. -/
theorem move_leased {change : JobRecord → JobRecord → Prop} {s t : σ} {j j' owner : String}
    {op : JobOp π} (h : S.Leased change s t j' owner)
    (hmove : j' = j → ∀ old new, old.leaseOwner = some owner → change old new →
      Move P j op (.flag true) (some old) (some new)) :
    Move P j op (.flag true) (S.get s j) (S.get t j) := by
  obtain ⟨old, new, hold, howner, hchange, hset⟩ := h
  rw [hset j]
  rcases eq_or_ne j j' with rfl | hj
  · rw [if_pos rfl, hold]
    exact hmove rfl old new howner hchange
  · rw [if_neg hj]
    exact .same _ (by rintro job ⟨⟩)

/-- The one inversion of a store call that the invariants are proved from. -/
theorem exec_move (hS : S.Lawful P) (s : σ) (op : JobOp π) (j : String) :
    Move P j op (S.exec s op).2 (S.get s j) (S.get (S.exec s op).1 j) := by
  cases op with
  | enqueue now newId input =>
    rcases hr : (S.enqueue s now newId input).2 with e | j'
    · simp only [JobStore.exec, hr, hS.enqueue_error hr]
      exact .same _ (by rintro job ⟨⟩)
    · obtain ⟨hj', new, hfresh, hset⟩ := hS.enqueue_ok hr
      simp only [JobStore.exec, hr, hset j]
      rcases eq_or_ne j j' with rfl | hj
      · rw [if_pos rfl]
        exact .enqueue _ hj'.symm hfresh
      · rw [if_neg hj]
        exact .same _ (by rintro job ⟨⟩)
  | claim now options =>
    rcases hr : (S.claim s now options).2 with _ | job
    · simp only [JobStore.exec, hr, hS.claim_none hr]
      exact .same _ (by rintro job ⟨⟩)
    · obtain ⟨old, hold, hclaimed, hset⟩ := hS.claim_some hr
      simp only [JobStore.exec, hr, hset j]
      rcases eq_or_ne j job.jobId with rfl | hj
      · rw [if_pos rfl, hold]
        exact .claim rfl hclaimed
      · rw [if_neg hj]
        refine .same _ ?_
        rintro _ ⟨⟩
        exact hj.symm
  | complete now j' owner =>
    cases hr : (S.complete s now j' owner).2 with
    | true =>
      simp only [JobStore.exec, hr]
      refine move_leased (hS.complete_true hr) ?_
      rintro rfl old new howner h
      exact .complete howner h
    | false =>
      simp only [JobStore.exec, hr, (hS.complete_false hr).1]
      exact .same _ (by rintro job ⟨⟩)
  | fail now j' owner label retryAfterMs =>
    cases hr : (S.fail s now j' owner label retryAfterMs).2 with
    | true =>
      simp only [JobStore.exec, hr]
      refine move_leased (hS.fail_true hr) ?_
      rintro rfl old new howner h
      exact .fail howner h
    | false =>
      simp only [JobStore.exec, hr, (hS.fail_false hr).1]
      exact .same _ (by rintro job ⟨⟩)
  | renew now j' owner leaseMs =>
    cases hr : (S.renew s now j' owner leaseMs).2 with
    | true =>
      simp only [JobStore.exec, hr]
      refine move_leased (hS.renew_true hr) ?_
      rintro rfl old new howner h
      exact .renew howner h
    | false =>
      simp only [JobStore.exec, hr, hS.renew_false hr]
      exact .same _ (by rintro job ⟨⟩)
  | reclaimExpired now =>
    rcases hS.reclaimExpired s now j with hsame | ⟨old, new, hold, hrun, hrel, hnew⟩
    · simp only [JobStore.exec, hsame]
      exact .same _ (by rintro job ⟨⟩)
    · simp only [JobStore.exec, hold, hnew]
      exact .reclaim hrun hrel
  | get j' => exact .same _ (by rintro job ⟨⟩)
  | prune now olderThanMs =>
    rcases hS.prune s now olderThanMs j with hsame | ⟨old, hold, hterm, hnew⟩
    · simp only [JobStore.exec, hsame]
      exact .same _ (by rintro job ⟨⟩)
    · simp only [JobStore.exec, hold, hnew]
      exact .prune hterm
  | stats => exact .same _ (by rintro job ⟨⟩)

end Move

end Remembra.Jobs
