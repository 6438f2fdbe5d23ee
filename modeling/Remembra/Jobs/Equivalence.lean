import Remembra.Jobs.Fencing

/-! Whether the two job stores can be told apart. Their states are related when the rows of the
    table are the records of the map (`Sim`), and a pair of stores fed the same calls carries what
    each of them answered. Four calls are written differently in the two: `enqueue` of an id that is
    taken, `claim` with an empty list of types, `renew` of a lease that has run out, and `fail` of a
    job that still carries the delay of an earlier retry. `Agrees` says when a call is none of them. -/

namespace Remembra.Jobs
open Transition

variable {π : Type*}

/-- Both stores and everything they have answered. -/
structure Pair where
  mem : Memory.JobMap
  sql : Sqlite.JobTable
  memResults : List JobResult
  sqlResults : List JobResult

def Pair.init : Pair := ⟨.empty, .empty, [], []⟩

/-- The same call, with the same clock reading and the same generated id, on both stores. -/
def Pair.call (P : Platform π) (p : Pair) (op : JobOp π) : Option Pair :=
  let m := (inMemory P).exec p.mem op
  let s := (sqlite P).exec p.sql op
  some ⟨m.1, s.1, p.memResults ++ [m.2], p.sqlResults ++ [s.2]⟩

/-- The same results so far, and the same records. -/
def Pair.Same (p : Pair) : Prop :=
  p.memResults = p.sqlResults ∧ ∀ j, p.mem.get j = Sqlite.get p.sql j

/-- The input passes the checks of `enqueue`. -/
def Accepted (P : Platform π) (input : EnqueueInput π) : Prop :=
  ∃ tenantId type payload, normalizeTenantId P input.tenantId = .ok tenantId ∧
    normalizeJobType input.type = .ok type ∧ encodeJobPayload P input.payload = .ok payload

/-- The call is not one of those the stores answer differently. -/
def Agrees (P : Platform π) (p : Pair) : JobOp π → Prop
  | .enqueue _ newId input => Accepted P input → p.mem.get (input.jobId.getD newId) = none
  | .claim now options => options.types = some [] →
      ∀ job ∈ p.mem.rows, Memory.claimable job now { options with types := none } = false
  | .renew now j owner _ => ∀ job, p.mem.get j = some job → job.leaseOwner = some owner →
      job.leaseExpiresAt.any (now < ·) = true
  | .fail _ j owner _ retryAfterMs => ∀ job, p.mem.get j = some job →
      job.leaseOwner = some owner →
      ¬ (job.attempt < job.maxAttempts ∧ 0 < retryAfterMs.getD 0) → job.runAfter = none
  | _ => True

/-! ### The simulation -/

/-- The table holds the records of the map, and a running job has a lease that ends. -/
structure Sim (m : Memory.JobMap) (s : Sqlite.JobTable) : Prop where
  rows : Table.Image Sqlite.toRecord m s
  timed : ∀ j job, m.get j = some job → job.state = .running → job.leaseExpiresAt ≠ none

variable {P : Platform π} {m : Memory.JobMap} {s : Sqlite.JobTable}

theorem Sim.get (h : Sim m s) (j : String) : m.get j = Sqlite.get s j :=
  h.rows.get (fun _ => rfl) j

theorem Sim.get_mem (h : Sim m s) {row : Sqlite.JobRow} (hrow : row ∈ s.rows) :
    m.get row.jobId = some (Sqlite.toRecord row) := by
  rw [h.get, Sqlite.get, Table.get_of_mem hrow]
  rfl

/-- Both stores still agree after a call that left `r` and `r'` in them. -/
theorem Sim.of_rows {m' : Memory.JobMap} {s' : Sqlite.JobTable} (h : Sim m s)
    (hrows : Table.Image Sqlite.toRecord m' s')
    (htimed : ∀ j job, m'.get j = some job → m.get j = some job ∨ job.state ≠ .running ∨
      job.leaseExpiresAt ≠ none) : Sim m' s' where
  rows := hrows
  timed j job hjob hrun := by
    rcases htimed j job hjob with hold | hne | hlease
    · exact h.timed j job hold hrun
    · exact absurd hrun hne
    · exact hlease

/-- The calls on a claim: where the map holds the job for this owner both stores change it alike,
    and elsewhere neither does anything. -/
theorem Sim.put (h : Sim m s) {j : String} {old : JobRecord} (hold : m.get j = some old)
    {q : Sqlite.JobRow → Bool} {f : JobRecord → JobRecord} {g : Sqlite.JobRow → Sqlite.JobRow}
    (hf : ∀ r, (f r).jobId = r.jobId) (hg : ∀ row, (g row).jobId = row.jobId)
    (hq : ∀ row, Sqlite.toRecord row = old → q row = true)
    (hq' : ∀ row, q row = true → row.jobId = j)
    (hset : ∀ row, Sqlite.toRecord row = old → f old = Sqlite.toRecord (g row))
    (htimed : (f old).state ≠ .running ∨ (f old).leaseExpiresAt ≠ none) :
    Sim (Memory.put m j f hf) (s.updateWhere q g hg).1 ∧ (s.updateWhere q g hg).2 = 1 := by
  have hrow : ∀ row ∈ s.rows, row.jobId = j → Sqlite.toRecord row = old := by
    intro row hmem hj
    exact Option.some.inj ((h.get_mem hmem).symm.trans (hj ▸ hold))
  obtain ⟨himage, hcount⟩ := h.rows.updateWhere (p := (·.jobId = j)) (q := q) hf hg
    (fun row hmem => by
      rcases eq_or_ne row.jobId j with hj | hj
      · rw [hq row (hrow row hmem hj)]
        exact decide_eq_true hj
      · rw [Bool.eq_false_iff.mpr fun hqr => hj (hq' row hqr)]
        exact decide_eq_false hj)
    (fun row hmem hqr => by
      have hr := hrow row hmem (hq' row hqr)
      rw [hr]
      exact hset row hr)
  refine ⟨h.of_rows himage fun j' job hjob => ?_, ?_⟩
  · rw [Memory.get_put m hf hold] at hjob
    split at hjob
    · cases hjob
      exact .inr htimed
    · exact .inl hjob
  · rw [← hcount]
    rcases m.updateWhere_of_key (·.jobId = j) f hf j (fun r hr => of_decide_eq_true hr)
      with ⟨-, -, -, hone, -⟩ | ⟨hnone, -⟩
    · exact hone
    · have := hnone old hold
      rw [decide_eq_false_iff_not] at this
      exact absurd (Table.key_of_get hold) this

theorem Sim.not_held (h : Sim m s) {j owner : String} {q : Sqlite.JobRow → Bool}
    {g : Sqlite.JobRow → Sqlite.JobRow} (hg : ∀ row, (g row).jobId = row.jobId)
    (hq : ∀ row, q row = true → Sqlite.heldWhere j owner row = true)
    (hnot : ∀ job, m.get j = some job → job.leaseOwner ≠ some owner) :
    s.updateWhere q g hg = (s, 0) := by
  have hheld : ∀ row, q row = true → row.jobId = j ∧ row.leaseOwner = some owner := by
    intro row hrow
    simpa [Sqlite.heldWhere] using hq row hrow
  rcases s.updateWhere_of_key q g hg j (fun row hrow => (hheld row hrow).1)
    with ⟨row, hrow, hqr, -, -⟩ | ⟨-, hsame⟩
  · have hj := (hheld row hqr).1
    have hget := h.get_mem (Table.get_eq_some.mp hrow).1
    exact absurd (hheld row hqr).2 (hnot _ (hj ▸ hget))
  · exact hsame

/-- A call on a claim of `j` by `owner`, where the two stores change a held row alike. -/
theorem Sim.leased (h : Sim m s) {j owner : String} {q : Sqlite.JobRow → Bool}
    {f : JobRecord → JobRecord} {g : Sqlite.JobRow → Sqlite.JobRow}
    (hf : ∀ r, (f r).jobId = r.jobId) (hg : ∀ row, (g row).jobId = row.jobId)
    (hheld : ∀ row, q row = true → Sqlite.heldWhere j owner row = true)
    (hset : ∀ row, m.get j = some (Sqlite.toRecord row) → row.leaseOwner = some owner →
      q row = true ∧ f (Sqlite.toRecord row) = Sqlite.toRecord (g row))
    (htimed : ∀ job, (f job).state ≠ .running ∨ (f job).leaseExpiresAt ≠ none)
    {r : Memory.JobMap × Bool} (hr : r = match m.get j with
      | none => (m, false)
      | some job => if job.leaseOwner ≠ some owner then (m, false)
        else (Memory.put m j f hf, true))
    {r' : Sqlite.JobTable × Bool}
    (hr' : r' = ((s.updateWhere q g hg).1, decide ((s.updateWhere q g hg).2 = 1))) :
    Sim r.1 r'.1 ∧ r.2 = r'.2 := by
  subst hr hr'
  have hnot : (∀ job, m.get j = some job → job.leaseOwner ≠ some owner) →
      Sim m (s.updateWhere q g hg).1 ∧ false = decide ((s.updateWhere q g hg).2 = 1) := by
    intro hnot
    rw [h.not_held hg hheld hnot]
    exact ⟨h, rfl⟩
  rcases hold : m.get j with _ | old <;> dsimp only
  · exact hnot (by rw [hold]; rintro _ ⟨⟩)
  · rcases eq_or_ne old.leaseOwner (some owner) with howner | howner
    · rw [if_neg (not_not_intro howner)]
      obtain ⟨hsim, hone⟩ := h.put hold hf hg
        (fun row hrow => (hset row (hrow ▸ hold) (by rw [← hrow] at howner; exact howner)).1)
        (fun row hrow => by
          have := hheld row hrow
          simp only [Sqlite.heldWhere, Bool.and_eq_true, decide_eq_true_eq] at this
          exact this.1)
        (fun row hrow => by
          subst hrow
          exact (hset row hold howner).2)
        (htimed old)
      exact ⟨hsim, (decide_eq_true hone).symm⟩
    · rw [if_pos howner]
      exact hnot (by rw [hold]; rintro _ ⟨⟩; exact howner)

theorem heldWhere_of {j owner : String} {row : Sqlite.JobRow}
    (hget : m.get j = some (Sqlite.toRecord row)) (howner : row.leaseOwner = some owner) :
    Sqlite.heldWhere j owner row = true := by
  have hj : (Sqlite.toRecord row).jobId = j := Table.key_of_get hget
  simp [Sqlite.heldWhere, show row.jobId = j from hj, howner]

theorem sim_complete (h : Sim m s) (now : ℤ) (j owner : String) :
    Sim (Memory.complete m now j owner).1 (Sqlite.complete s now j owner).1 ∧
      (Memory.complete m now j owner).2 = (Sqlite.complete s now j owner).2 :=
  h.leased (Memory.completed_jobId now) (Sqlite.setCompleted_jobId now) (fun _ => id)
    (fun _ hget howner => ⟨heldWhere_of hget howner, rfl⟩) (fun _ => .inl (by simp [Memory.completed]))
    rfl rfl

theorem sim_renew (h : Sim m s) {now : ℤ} {j owner : String} {leaseMs : Option ℤ}
    (hlease : ∀ job, m.get j = some job → job.leaseOwner = some owner →
      job.leaseExpiresAt.any (now < ·) = true) :
    Sim (Memory.renew m now j owner leaseMs).1 (Sqlite.renew s now j owner leaseMs).1 ∧
      (Memory.renew m now j owner leaseMs).2 = (Sqlite.renew s now j owner leaseMs).2 :=
  h.leased (Memory.renewed_jobId now _) (Sqlite.setRenewed_jobId now _)
    (Sqlite.renewableWhere_held now j owner)
    (fun row hget howner => ⟨by
      rw [Sqlite.renewableWhere, heldWhere_of hget howner, Bool.true_and]
      exact hlease _ hget howner, rfl⟩)
    (fun _ => .inr (by simp [Memory.renewed])) rfl rfl

theorem sim_fail (h : Sim m s) {now : ℤ} {j owner label : String} {retryAfterMs : Option ℤ}
    (hdelay : ∀ job, m.get j = some job → job.leaseOwner = some owner →
      ¬ (job.attempt < job.maxAttempts ∧ 0 < retryAfterMs.getD 0) → job.runAfter = none) :
    Sim (Memory.fail m now j owner label retryAfterMs).1
        (Sqlite.fail s now j owner label retryAfterMs).1 ∧
      (Memory.fail m now j owner label retryAfterMs).2 =
        (Sqlite.fail s now j owner label retryAfterMs).2 := by
  refine h.leased (Memory.failed_jobId now label _) (Sqlite.setFailed_jobId now label _)
    (fun _ => id) (fun row hget howner => ⟨heldWhere_of hget howner, ?_⟩) (fun job => .inl ?_)
    rfl rfl
  · have hnone := hdelay _ hget howner
    simp only [Memory.failed, Sqlite.setFailed, Sqlite.toRecord, JobRecord.mk.injEq, true_and]
    rcases lt_or_ge row.attempt row.maxAttempts with hlt | hge
    · rcases lt_or_ge 0 (retryAfterMs.getD 0) with hpos | hneg
      · simp [hlt, hpos]
      · have := hnone fun hboth => absurd hboth.2 (not_lt.mpr hneg)
        simp only [hlt, true_and, if_true, gt_iff_lt, not_lt.mpr hneg, if_false]
        exact this
    · have := hnone fun hboth => absurd hboth.1 (not_lt.mpr hge)
      simp only [not_lt.mpr hge, false_and, if_false]
      exact ⟨trivial, trivial, this⟩
  · simp only [Memory.failed]
    split <;> simp

theorem sim_reclaimExpired (h : Sim m s) (now : ℤ) :
    Sim (Memory.reclaimExpired m now).1 (Sqlite.reclaimExpired s now).1 ∧
      (Memory.reclaimExpired m now).2 = (Sqlite.reclaimExpired s now).2 := by
  obtain ⟨himage, hcount⟩ := h.rows.updateWhere (p := Memory.isExpired now)
    (q := Sqlite.expiredWhere now) (Memory.reclaimed_jobId now) (Sqlite.setReclaimed_jobId now)
    (fun row hrow => by
      -- a running row has a lease that ends, so the test for `NULL` makes no difference
      have htimed := h.timed _ _ (h.get_mem hrow)
      simp only [Sqlite.toRecord] at htimed
      simp only [Memory.isExpired, Sqlite.expiredWhere, Sqlite.toRecord]
      rcases hlease : row.leaseExpiresAt with _ | t
      · simp [show row.state ≠ .running from fun hrun => htimed hrun hlease]
      · rfl)
    (fun row _ _ => rfl)
  refine ⟨h.of_rows himage fun j job hjob => ?_, hcount⟩
  rw [Memory.reclaimExpired, Table.get_updateWhere, Option.map_eq_some_iff] at hjob
  obtain ⟨old, hold, rfl⟩ := hjob
  split
  · refine .inr (.inl ?_)
    simp only [Memory.reclaimed]
    split <;> simp
  · exact .inl hold

theorem sim_prune (h : Sim m s) (now olderThanMs : ℤ) :
    Sim (Memory.prune m now olderThanMs).1 (Sqlite.prune s now olderThanMs).1 ∧
      (Memory.prune m now olderThanMs).2 = (Sqlite.prune s now olderThanMs).2 := by
  obtain ⟨himage, hcount⟩ := h.rows.deleteWhere (p := Memory.isPrunable now olderThanMs)
    (q := Sqlite.prunableWhere now olderThanMs) (fun row _ => by
      have hage : (olderThanMs ≤ now - row.completedAt.getD row.createdAt) ↔
          (row.completedAt.getD row.createdAt ≤ now - olderThanMs) := by omega
      simp only [Memory.isPrunable, Sqlite.prunableWhere, Sqlite.toRecord, hage]
      rcases row.state <;> simp [Memory.isTerminal])
  refine ⟨h.of_rows himage fun j job hjob => .inl ?_, hcount⟩
  rw [Memory.prune, Table.get_deleteWhere, Option.filter_eq_some_iff] at hjob
  exact hjob.1

/-- The rows the two stores choose a job from, when no type list or a list of some types is given. -/
theorem claimable_image (h : Sim m s) (now : ℤ) (options : ClaimOptions)
    (htypes : options.types ≠ some []) :
    m.rows.filter (Memory.claimable · now options) =
      (s.rows.filter (Sqlite.claimableWhere now options)).map Sqlite.toRecord := by
  rw [h.rows, List.filter_map]
  refine congrArg (List.map Sqlite.toRecord) (List.filter_congr fun row _ => ?_)
  simp only [Function.comp_apply, Memory.claimable, Sqlite.claimableWhere, Sqlite.toRecord]
  congr 1
  · congr 1
    · congr 1
      cases row.runAfter <;> rfl
    · rcases hty : options.types with _ | _ | ⟨t, l⟩
      · rfl
      · exact absurd hty htypes
      · rfl
  · cases options.tenantId <;> rfl

theorem orderBy_older (a b : Sqlite.JobRow) :
    Memory.older P (Sqlite.toRecord a) (Sqlite.toRecord b) = Sqlite.orderBy P a b := rfl

theorem setClaimed_claimed (now : ℤ) (options : ClaimOptions) (row : Sqlite.JobRow) :
    Memory.claimed P now options (Sqlite.toRecord row) =
      Sqlite.toRecord (Sqlite.setClaimed P now options row) := by
  cases hs : row.startedAt <;> simp [Memory.claimed, Sqlite.setClaimed, Sqlite.toRecord, hs]

theorem sim_claim (P : Platform π) (h : Sim m s) (now : ℤ) {options : ClaimOptions}
    (htypes : options.types ≠ some []) :
    Sim (Memory.claim P m now options).1 (Sqlite.claim P s now options).1 ∧
      (Memory.claim P m now options).2 = (Sqlite.claim P s now options).2 := by
  unfold Memory.claim Sqlite.claim
  rw [claimable_image h now options htypes, firstMin_map (orderBy_older (P := P))]
  rcases hmin : firstMin (Sqlite.orderBy P) (s.rows.filter (Sqlite.claimableWhere now options))
    with _ | row
  · exact ⟨h, rfl⟩
  · have hmem : row ∈ s.rows := (List.mem_filter.mp (firstMin_mem hmin)).1
    have hget := h.get_mem hmem
    rw [Option.map_some]
    dsimp only
    rw [setClaimed_claimed]
    set taken := Sqlite.toRecord (Sqlite.setClaimed P now options row) with htaken
    have htimed : ∀ j job, (m.upsert taken).get j = some job →
        m.get j = some job ∨ job.state ≠ .running ∨ job.leaseExpiresAt ≠ none := by
      intro j job hjob
      rw [Table.get_upsert] at hjob
      split at hjob
      · cases hjob
        exact .inr (.inr (by simp [htaken, Sqlite.toRecord, Sqlite.setClaimed]))
      · exact .inl hjob
    refine ⟨h.of_rows ?_ htimed, ?_⟩
    · have hsome : m.get taken.jobId ≠ none := by
        rw [show taken.jobId = row.jobId from rfl, hget]
        simp
      refine (Table.upsert_of_get hsome).trans ?_
      change _ = (s.rows.map _).map Sqlite.toRecord
      rw [h.rows, List.map_map, List.map_map]
      refine List.map_congr_left fun r hr => ?_
      change (if r.jobId = row.jobId then taken else Sqlite.toRecord r) = Sqlite.toRecord (if
        decide (r.jobId = row.jobId) = true then Sqlite.setClaimed P now options r else r)
      rcases eq_or_ne r.jobId row.jobId with hj | hj
      · obtain rfl : r = row := Option.some.inj
          ((Table.get_of_mem hr).symm.trans (hj ▸ Table.get_of_mem hmem))
        simp [htaken]
      · simp [hj]
    · rw [Table.get_updateWhere, Table.get_of_mem hmem]
      simp [htaken]

theorem Sim.insert (h : Sim m s) {s' : Sqlite.JobTable} {row : Sqlite.JobRow}
    (hinsert : s.insert row = some s') (hstate : row.state ≠ .running) :
    Sim (m.upsert (Sqlite.toRecord row)) s' := by
  obtain ⟨hfree, hrows⟩ := Table.rows_insert hinsert
  have hnone : m.get (Sqlite.toRecord row).jobId = none := by
    rw [h.get, Sqlite.get, show (Sqlite.toRecord row).jobId = row.jobId from rfl, hfree]
    rfl
  refine h.of_rows ?_ fun j job hjob => ?_
  · refine (Table.upsert_of_free hnone).trans ?_
    rw [hrows, List.map_append, h.rows]
    rfl
  · rw [Table.get_upsert] at hjob
    split at hjob
    · cases hjob
      exact .inr (.inl hstate)
    · exact .inl hjob

theorem sim_enqueue (P : Platform π) (h : Sim m s) (now : ℤ) {newId : String}
    {input : EnqueueInput π}
    (hfree : Accepted P input → m.get (input.jobId.getD newId) = none) :
    Sim (Memory.enqueue P m now newId input).1 (Sqlite.enqueue P s now newId input).1 ∧
      (Memory.enqueue P m now newId input).2 = (Sqlite.enqueue P s now newId input).2 := by
  unfold Memory.enqueue Sqlite.enqueue
  rcases htenant : normalizeTenantId P input.tenantId with e | tenantId
  · exact ⟨h, rfl⟩
  rcases htype : normalizeJobType input.type with e | type
  · exact ⟨h, rfl⟩
  rcases hpayload : encodeJobPayload P input.payload with e | payload
  · exact ⟨h, rfl⟩
  have hget := hfree ⟨tenantId, type, payload, htenant, htype, hpayload⟩
  have htrue : tenantId.filter (· ≠ "") = tenantId := by
    rcases tenantId with _ | d
    · rfl
    · simp [normalizeTenantId_ne_empty P htenant]
  dsimp only
  rw [htrue]
  split
  · rename_i hnone
    have hnot := Table.insert_eq_none.mp hnone
    rw [h.get, Sqlite.get, Option.map_eq_none_iff] at hget
    exact absurd hget hnot
  · rename_i s' hinsert
    have hsim := h.insert hinsert (by simp)
    exact ⟨hsim, rfl⟩

/-- Counting every state in one pass or each state on its own. -/
theorem foldl_tally (rows : List Sqlite.JobRow) (counts : Stats) :
    (rows.map Sqlite.toRecord).foldl Memory.tally counts =
      { queued := counts.queued + (rows.filter fun row => row.state = .queued).length
        running := counts.running + (rows.filter fun row => row.state = .running).length
        retrying := counts.retrying + (rows.filter fun row => row.state = .retrying).length
        failed := counts.failed + (rows.filter fun row => row.state = .failed).length
        completed := counts.completed + (rows.filter fun row => row.state = .completed).length
        cancelled := counts.cancelled + (rows.filter fun row => row.state = .cancelled).length } := by
  induction rows generalizing counts with
  | nil => rfl
  | cons row rows ih =>
    rw [List.map_cons, List.foldl_cons, ih, Memory.tally]
    cases hs : row.state <;> simp [Sqlite.toRecord, hs] <;> omega

theorem sim_stats (h : Sim m s) : Memory.stats m = Sqlite.stats s := by
  rw [Memory.stats, h.rows, foldl_tally]
  simp [Sqlite.stats]

/-- With an empty list of types the map offers no job. -/
theorem memory_claim_no_types {now : ℤ} {options : ClaimOptions} (htypes : options.types = some []) :
    Memory.claim P m now options = (m, none) := by
  have hnone : m.rows.filter (Memory.claimable · now options) = [] := by
    rw [List.filter_eq_nil_iff]
    intro job _
    simp [Memory.claimable, htypes]
  rw [Memory.claim, hnone]
  rfl

/-- With an empty list of types the table offers every type. -/
theorem sqlite_claim_no_types (h : Sim m s) {now : ℤ} {options : ClaimOptions}
    (htypes : options.types = some []) :
    Sqlite.claim P s now options = (s, none) ↔
      ∀ job ∈ m.rows, Memory.claimable job now { options with types := none } = false := by
  have hrows := claimable_image h now { options with types := none } (by simp)
  have hwhere : Sqlite.claimableWhere now options =
      Sqlite.claimableWhere now { options with types := none } := by
    funext row
    simp only [Sqlite.claimableWhere, htypes]
  rw [Sqlite.claim, hwhere]
  constructor
  · intro hclaim job hjob
    rcases hmin : firstMin (Sqlite.orderBy P) (s.rows.filter
        (Sqlite.claimableWhere now { options with types := none })) with _ | row
    · rw [firstMin_eq_none.mp hmin, List.map_nil, List.filter_eq_nil_iff] at hrows
      exact Bool.eq_false_iff.mpr (hrows job hjob)
    · have hmem := (List.mem_filter.mp (firstMin_mem hmin)).1
      rw [hmin] at hclaim
      have hnone := congrArg Prod.snd hclaim
      dsimp only at hnone
      rw [Table.get_updateWhere, Table.get_of_mem hmem] at hnone
      simp at hnone
  · intro hnone
    have hnil : m.rows.filter (Memory.claimable · now { options with types := none }) = [] := by
      rw [List.filter_eq_nil_iff]
      exact fun job hjob => Bool.eq_false_iff.mp (hnone job hjob)
    rw [hnil, eq_comm, List.map_eq_nil_iff] at hrows
    rw [hrows]
    rfl

/-- One call that the stores answer alike. -/
theorem sim_exec (P : Platform π) {p : Pair} {op : JobOp π} (h : Sim p.mem p.sql)
    (hop : Agrees P p op) :
    Sim ((inMemory P).exec p.mem op).1 ((sqlite P).exec p.sql op).1 ∧
      ((inMemory P).exec p.mem op).2 = ((sqlite P).exec p.sql op).2 := by
  cases op with
  | enqueue now newId input =>
    obtain ⟨hsim, hres⟩ := sim_enqueue P h now hop
    exact ⟨hsim, congrArg JobResult.enqueued hres⟩
  | claim now options =>
    rcases eq_or_ne options.types (some []) with htypes | htypes
    · have hsql := (sqlite_claim_no_types (P := P) h htypes).mpr (hop htypes)
      change Sim (Memory.claim P p.mem now options).1 (Sqlite.claim P p.sql now options).1 ∧
        JobResult.claimed (Memory.claim P p.mem now options).2 =
          JobResult.claimed (Sqlite.claim P p.sql now options).2
      rw [memory_claim_no_types htypes, hsql]
      exact ⟨h, rfl⟩
    · obtain ⟨hsim, hres⟩ := sim_claim P h now htypes
      exact ⟨hsim, congrArg JobResult.claimed hres⟩
  | complete now j owner =>
    obtain ⟨hsim, hres⟩ := sim_complete h now j owner
    exact ⟨hsim, congrArg JobResult.flag hres⟩
  | fail now j owner label retryAfterMs =>
    obtain ⟨hsim, hres⟩ := sim_fail h hop
    exact ⟨hsim, congrArg JobResult.flag hres⟩
  | renew now j owner leaseMs =>
    obtain ⟨hsim, hres⟩ := sim_renew h hop
    exact ⟨hsim, congrArg JobResult.flag hres⟩
  | reclaimExpired now =>
    obtain ⟨hsim, hres⟩ := sim_reclaimExpired h now
    exact ⟨hsim, congrArg JobResult.count hres⟩
  | get j => exact ⟨h, congrArg JobResult.job (h.get j)⟩
  | prune now olderThanMs =>
    obtain ⟨hsim, hres⟩ := sim_prune h now olderThanMs
    exact ⟨hsim, congrArg JobResult.count hres⟩
  | stats => exact ⟨h, congrArg JobResult.stats (sim_stats h)⟩

/-! ### The calls on which the stores differ -/

theorem memory_enqueue_accepted (m : Memory.JobMap) (now : ℤ) (newId : String) {input : EnqueueInput π}
    (h : Accepted P input) : ∃ j, (Memory.enqueue P m now newId input).2 = .ok j := by
  obtain ⟨tenantId, type, payload, htenant, htype, hpayload⟩ := h
  simp [Memory.enqueue, htenant, htype, hpayload]

theorem sqlite_enqueue_taken (now : ℤ) {newId : String} {input : EnqueueInput π}
    (h : Accepted P input) (hget : s.get (input.jobId.getD newId) ≠ none) :
    (Sqlite.enqueue P s now newId input).2 = .error .uniqueConstraint := by
  obtain ⟨tenantId, type, payload, htenant, htype, hpayload⟩ := h
  simp only [Sqlite.enqueue, htenant, htype, hpayload]
  rw [Table.insert_eq_none.mpr hget]

theorem memory_renew_held {now : ℤ} {j owner : String} {leaseMs : Option ℤ} {job : JobRecord}
    (hget : m.get j = some job) (howner : job.leaseOwner = some owner) :
    (Memory.renew m now j owner leaseMs).2 = true := by
  rw [Memory.renew, hget]
  dsimp only
  rw [if_neg (not_not_intro howner)]

theorem memory_fail_held {now : ℤ} {j owner label : String} {retryAfterMs : Option ℤ}
    {job : JobRecord} (hget : m.get j = some job) (howner : job.leaseOwner = some owner) :
    (Memory.fail m now j owner label retryAfterMs).1.get j =
      some (Memory.failed now label (retryAfterMs.getD 0) job) := by
  rw [Memory.fail, hget]
  dsimp only
  rw [if_neg (not_not_intro howner), Memory.get_put _ _ hget, if_pos rfl]

/-- Stores that answer a call alike and show the same records after it were given a call they agree
    on. -/
theorem agrees_of_same (P : Platform π) {p : Pair} {op : JobOp π} (h : Sim p.mem p.sql)
    (hres : ((inMemory P).exec p.mem op).2 = ((sqlite P).exec p.sql op).2)
    (hget : ∀ j, ((inMemory P).exec p.mem op).1.get j =
      Sqlite.get ((sqlite P).exec p.sql op).1 j) : Agrees P p op := by
  cases op with
  | enqueue now newId input =>
    intro haccepted
    by_contra hne
    obtain ⟨j, hj⟩ := memory_enqueue_accepted p.mem now newId haccepted
    have htaken := sqlite_enqueue_taken (s := p.sql) now haccepted (by
      rw [h.get, Sqlite.get] at hne
      exact fun hnone => hne (by rw [hnone]; rfl))
    have heq : (Memory.enqueue P p.mem now newId input).2 =
      (Sqlite.enqueue P p.sql now newId input).2 := JobResult.enqueued.inj hres
    rw [hj, htaken] at heq
    cases heq
  | claim now options =>
    intro htypes
    have heq : (Memory.claim P p.mem now options).2 = (Sqlite.claim P p.sql now options).2 :=
      JobResult.claimed.inj hres
    rw [memory_claim_no_types htypes] at heq
    have hsame : (Sqlite.claim P p.sql now options).1 = p.sql :=
      (sqlite_lawful P).claim_none heq.symm
    exact (sqlite_claim_no_types h htypes).mp (Prod.ext hsame heq.symm)
  | renew now j owner leaseMs =>
    intro job hjob howner
    have heq : (Memory.renew p.mem now j owner leaseMs).2 =
      (Sqlite.renew p.sql now j owner leaseMs).2 := JobResult.flag.inj hres
    rw [memory_renew_held hjob howner, eq_comm] at heq
    have hone := of_decide_eq_true heq
    rcases p.sql.updateWhere_of_key (Sqlite.renewableWhere now j owner)
      (Sqlite.setRenewed now (leaseMs.getD defaultLeaseMs)) (Sqlite.setRenewed_jobId now _) j
      (fun row hrow => by
        have := Sqlite.renewableWhere_held now j owner row hrow
        simp only [Sqlite.heldWhere, Bool.and_eq_true, decide_eq_true_eq] at this
        exact this.1)
      with ⟨row, hrow, hwhere, -, -⟩ | ⟨-, hsame⟩
    · rw [h.get, Sqlite.get, hrow] at hjob
      cases hjob
      rw [Sqlite.renewableWhere, Bool.and_eq_true] at hwhere
      exact hwhere.2
    · rw [hsame] at hone
      cases hone
  | fail now j owner label retryAfterMs =>
    intro job hjob howner hnot
    have hsql := hget j
    change (Memory.fail p.mem now j owner label retryAfterMs).1.get j =
      ((Sqlite.fail p.sql now j owner label retryAfterMs).1.get j).map Sqlite.toRecord at hsql
    rw [memory_fail_held hjob howner, Sqlite.fail, Table.get_updateWhere, eq_comm, Option.map_eq_some_iff] at hsql
    obtain ⟨row', hrow', hrec⟩ := hsql
    rw [Option.map_eq_some_iff] at hrow'
    obtain ⟨row, hrow, hset⟩ := hrow'
    have hjob' := hjob
    rw [h.get, Sqlite.get, hrow] at hjob'
    cases hjob'
    rw [if_pos (heldWhere_of hjob howner)] at hset
    subst hset
    have hafter : (Sqlite.setFailed now label (retryAfterMs.getD 0) row).runAfter =
        (Memory.failed now label (retryAfterMs.getD 0) (Sqlite.toRecord row)).runAfter :=
      congrArg JobRecord.runAfter hrec
    have hdelay : ¬ (row.attempt < row.maxAttempts ∧ retryAfterMs.getD 0 > 0) := hnot
    have hnone : (Sqlite.setFailed now label (retryAfterMs.getD 0) row).runAfter = none := by
      simp only [Sqlite.setFailed]
      split
      · rename_i hlt
        exact if_neg fun hpos => hdelay ⟨hlt, hpos⟩
      · rfl
    rw [hnone, eq_comm] at hafter
    exact (if_neg hdelay).symm.trans hafter
  | _ => trivial

/-! ### Runs -/

/-- What a pair of stores keeps to while it is given calls they agree on. -/
structure Pair.Inv (p : Pair) : Prop where
  sim : Sim p.mem p.sql
  results : p.memResults = p.sqlResults

theorem Pair.inv_init : Pair.init.Inv where
  sim := ⟨rfl, by rintro j job ⟨⟩⟩
  results := rfl

theorem Pair.inv_call {p t : Pair} {op : JobOp π} (h : p.Inv) (hop : Agrees P p op)
    (ht : p.call P op = some t) : t.Inv := by
  obtain ⟨hsim, hres⟩ := sim_exec P h.sim hop
  cases ht
  exact ⟨hsim, congrArg₂ (· ++ ·) h.results (congrArg (fun r => [r]) hres)⟩

theorem Pair.not_same_of_call {p t : Pair} {op : JobOp π} (h : p.Inv) (hop : ¬ Agrees P p op)
    (ht : p.call P op = some t) : ¬ t.Same := by
  cases ht
  rintro ⟨hresults, hget⟩
  rw [h.results, List.append_cancel_left_eq] at hresults
  exact hop (agrees_of_same P h.sim (List.cons.inj hresults).1 hget)

/-- The stores give the same results and show the same records throughout a run exactly when the run
    makes none of the calls they treat differently. -/
theorem same_iff_agrees (P : Platform π) (ops : List (JobOp π)) :
    Everywhere (Pair.call P) Pair.Same Pair.init ops ↔
      Along (Pair.call P) (Agrees P) Pair.init ops :=
  everywhere_iff_along (fun _ _ _ hp hop ht => Pair.inv_call hp hop ht)
    (fun _ hp => ⟨hp.results, hp.sim.get⟩)
    (fun _ _ _ hp hop ht => Pair.not_same_of_call hp hop ht) Pair.inv_init ops

/-- The two stores answered differently, or show different records of job `j`. -/
def Pair.differs (p : Pair) : Bool :=
  p.memResults ≠ p.sqlResults || p.mem.get "j" ≠ Sqlite.get p.sql "j"

theorem not_same_of_differs {ops : List (JobOp Unit)}
    (h : (run (Pair.call noPayload) Pair.init ops).any Pair.differs = true) :
    ¬ Everywhere (Pair.call noPayload) Pair.Same Pair.init ops := by
  intro hall
  obtain ⟨p, hp, hdiffers⟩ := (Option.any_eq_true _ _).mp h
  obtain ⟨hresults, hget⟩ := hall.of_run hp
  simp [Pair.differs, hresults, hget] at hdiffers

/-- Job `j`, run by worker `a` under a lease of 100 ms. -/
def startedByA : List (JobOp Unit) :=
  [.enqueue 0 "j" { type := "t", payload := () },
    .claim 1 { owner := some "a", leaseMs := some 100 }]

/-- A repeated id, an empty list of types, a renewal that comes too late, and a failure after a
    delayed retry: each of them tells the stores apart. -/
theorem stores_differ :
    ¬ Everywhere (Pair.call noPayload) Pair.Same Pair.init
      [.enqueue 0 "j" { type := "t", payload := () },
        .enqueue 1 "k" { type := "t", payload := (), jobId := some "j" }] ∧
    ¬ Everywhere (Pair.call noPayload) Pair.Same Pair.init
      [.enqueue 0 "j" { type := "t", payload := () }, .claim 1 { types := some [] }] ∧
    ¬ Everywhere (Pair.call noPayload) Pair.Same Pair.init
      (startedByA ++ [.renew 101 "j" "a" none]) ∧
    ¬ Everywhere (Pair.call noPayload) Pair.Same Pair.init
      (startedByA ++ [.fail 2 "j" "a" "E" (some 5), .claim 7 { owner := some "a" },
        .fail 8 "j" "a" "E" none]) :=
  ⟨not_same_of_differs (by decide), not_same_of_differs (by decide),
    not_same_of_differs (by decide), not_same_of_differs (by decide)⟩

end Remembra.Jobs
