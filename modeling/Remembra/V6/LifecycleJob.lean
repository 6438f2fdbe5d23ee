import Remembra.V6.Lifecycle

/-! The lifecycle job: one bounded pass over the records of a tenant, which deletes what has expired and is
    not on hold. A pass counts every record of the tenant that it looks at, so it gets as far as the first
    `batchLimit` of them, and the next pass over its own output gets no further. What has expired among
    those is deleted in the first pass and never again; whenever something is left that has expired, the
    pass says that it exceeded its limit (`job_progress`). -/

namespace Remembra.V6.Lifecycle
open Store (JsNum)

/-! ### The pass -/

structure JobAuditEntry where
  memoryId : String
  organizationId : String
  action : LifecycleAction
  /-- `outcome` is `applied`, else `blocked`. -/
  applied : Bool
  blockedBy : Option BlockedBy := none
  time : ℚ

structure JobOptions where
  now : ℚ
  batchLimit : Option JsNum := none
  organizationId : Option String := none

structure LifecycleJobResult where
  processed : ℕ := 0
  deleted : ℕ := 0
  archived : ℕ := 0
  skippedLegalHold : ℕ := 0
  skippedForeignTenant : ℕ := 0
  exceededLimit : Bool := false
  audit : List JobAuditEntry := []
  updated : List LifecycleRecord := []

def JobOptions.limit (o : JobOptions) : JsNum := o.batchLimit.getD (.finite 100)

/-- The job is about this record's tenant. -/
def isOwn (o : JobOptions) (r : LifecycleRecord) : Bool := o.organizationId.all (· = r.organizationId)

/-- As many records have been looked at as the limit allows. -/
def atLimit (o : JobOptions) (processed : ℕ) : Bool := numLe o.limit (.finite processed)

/-- `updated.push(record)` -/
def LifecycleJobResult.push (j : LifecycleJobResult) (r : LifecycleRecord) : LifecycleJobResult :=
  { j with updated := j.updated ++ [r] }

def auditEntry (o : JobOptions) (r : LifecycleRecord) (applied : Bool) (blockedBy : Option BlockedBy) :
    JobAuditEntry :=
  { memoryId := r.id, organizationId := r.organizationId, action := .delete, applied, blockedBy,
    time := o.now }

/-- The body of the loop. -/
def jobStep (o : JobOptions) (j : LifecycleJobResult) (r : LifecycleRecord) :
    Except RemembraError LifecycleJobResult :=
  if !isOwn o r then
    .ok ({ j with skippedForeignTenant := j.skippedForeignTenant + 1 }.push r)
  else if atLimit o j.processed then .ok ({ j with exceededLimit := true }.push r)
  else
    let j := { j with processed := j.processed + 1 }
    if r.legalHold then
      .ok ({ j with
        skippedLegalHold := j.skippedLegalHold + 1
        audit := j.audit ++ [auditEntry o r false (some .legalHold)] }.push r)
    else if (evaluateExpiration r { now := o.now }).state ≠ .expired then .ok (j.push r)
    else do
      let result ← applyLifecycleAction (some r) .delete { now := o.now }
      let j := { j with audit := j.audit ++ [auditEntry o r result.applied result.blockedBy] }
      if result.applied then .ok ({ j with deleted := j.deleted + 1 }.push result.record)
      else .ok (j.push r)

def runLifecycleJob (records : List LifecycleRecord) (o : JobOptions) :
    Except RemembraError LifecycleJobResult :=
  records.foldlM (jobStep o) {}

/-! ### What is due -/

/-- A record of the tenant that has expired, as `evaluateExpiration` says, and is not on hold. -/
def isDue (o : JobOptions) (r : LifecycleRecord) : Bool :=
  isOwn o r && !r.legalHold && (evaluateExpiration r { now := o.now }).state = .expired

/-- The record deleted. -/
def deletedRecord (r : LifecycleRecord) : LifecycleRecord :=
  { r with deleted := true, version := r.version + 1 }

/-- How many records have been looked at, one later. -/
def advance (o : JobOptions) (processed : ℕ) (r : LifecycleRecord) : ℕ :=
  if isOwn o r && !atLimit o processed then processed + 1 else processed

/-- The pass deletes the record, if this many have been looked at before it. -/
def deletes (o : JobOptions) (processed : ℕ) (r : LifecycleRecord) : Bool :=
  !atLimit o processed && isDue o r

def swept (o : JobOptions) (processed : ℕ) (r : LifecycleRecord) : LifecycleRecord :=
  if deletes o processed r then deletedRecord r else r

/-- The records that a pass returns, from the one on before which this many have been looked at. -/
def sweep (o : JobOptions) : ℕ → List LifecycleRecord → List LifecycleRecord
  | _, [] => []
  | processed, r :: records => swept o processed r :: sweep o (advance o processed r) records

/-- How many records a pass deletes. -/
def deletions (o : JobOptions) : ℕ → List LifecycleRecord → ℕ
  | _, [] => 0
  | processed, r :: records =>
    (if deletes o processed r then 1 else 0) + deletions o (advance o processed r) records

/-- A pass comes to a record of the tenant when it is at its limit. -/
def overflows (o : JobOptions) : ℕ → List LifecycleRecord → Bool
  | _, [] => false
  | processed, r :: records =>
    (isOwn o r && atLimit o processed) || overflows o (advance o processed r) records

section Pass
variable {o : JobOptions} {r : LifecycleRecord} {records : List LifecycleRecord}

/-- Due is what has expired and is neither on hold nor deleted, superseded or archived. -/
theorem isDue_iff : isDue o r = true ↔ isOwn o r = true ∧ r.legalHold = false ∧ r.deleted = false ∧
    r.supersededBy = none ∧ r.archived = false ∧ hasPassed r.expiresAt o.now = true := by
  simp only [isDue, Bool.and_eq_true, Bool.not_eq_true', decide_eq_true_eq, state_eq_expired, and_assoc]

theorem apply_due (h : isDue o r = true) : applyLifecycleAction (some r) .delete { now := o.now } =
    .ok (applied (deletedRecord r) .deleted) := by
  simp only [isDue, Bool.and_eq_true, Bool.not_eq_true', decide_eq_true_eq] at h
  obtain ⟨⟨-, hheld⟩, hstate⟩ := h
  have hd := (state_eq_expired.mp hstate).1
  simp [applyLifecycleAction, hd, hheld, hstate, deletedRecord]

/-- One round of the loop. -/
theorem jobStep_spec (o : JobOptions) (j : LifecycleJobResult) (r : LifecycleRecord) :
    ∃ j', jobStep o j r = .ok j' ∧ j'.processed = advance o j.processed r ∧
      j'.updated = j.updated ++ [swept o j.processed r] ∧
      j'.deleted = j.deleted + (if deletes o j.processed r then 1 else 0) ∧
      j'.exceededLimit = (j.exceededLimit || (isOwn o r && atLimit o j.processed)) := by
  unfold jobStep advance swept deletes
  by_cases hown : isOwn o r = true
  · by_cases hat : atLimit o j.processed = true
    · simp [hown, hat, LifecycleJobResult.push]
    · by_cases hheld : r.legalHold = true
      · have hdue : isDue o r = false := by simp [isDue, hheld]
        simp [hown, hat, hheld, hdue, LifecycleJobResult.push]
      · by_cases hstate : (evaluateExpiration r { now := o.now }).state = .expired
        · have hdue : isDue o r = true := by simp [isDue, hown, hheld, hstate]
          simp [hown, hat, hheld, hstate, hdue, apply_due hdue, applied, LifecycleJobResult.push, bind,
            Except.bind]
        · have hdue : isDue o r = false := by simp [isDue, hstate]
          simp [hown, hat, hheld, hstate, hdue, LifecycleJobResult.push]
  · have hdue : isDue o r = false := by simp [isDue, hown]
    simp [hown, hdue, LifecycleJobResult.push]

/-- The whole loop. -/
theorem foldlM_spec (o : JobOptions) (records : List LifecycleRecord) (j : LifecycleJobResult) :
    ∃ j', records.foldlM (jobStep o) j = .ok j' ∧ j'.updated = j.updated ++ sweep o j.processed records ∧
      j'.deleted = j.deleted + deletions o j.processed records ∧
      j'.exceededLimit = (j.exceededLimit || overflows o j.processed records) := by
  induction records generalizing j with
  | nil => exact ⟨j, rfl, by simp [sweep], by simp [deletions], by simp [overflows]⟩
  | cons r records ih =>
    obtain ⟨j₁, hok, hprocessed, hupdated, hdeleted, hexceeded⟩ := jobStep_spec o j r
    obtain ⟨j₂, hok₂, hupdated₂, hdeleted₂, hexceeded₂⟩ := ih j₁
    rw [hprocessed] at hupdated₂ hdeleted₂ hexceeded₂
    refine ⟨j₂, ?_, ?_, ?_, ?_⟩
    · rw [List.foldlM_cons, hok]
      exact hok₂
    · simp [hupdated₂, hupdated, sweep]
    · rw [hdeleted₂, hdeleted, deletions]
      omega
    · rw [hexceeded₂, hexceeded, overflows, Bool.or_assoc]

theorem job_spec (o : JobOptions) (records : List LifecycleRecord) :
    ∃ result, runLifecycleJob records o = .ok result ∧ result.updated = sweep o 0 records ∧
      result.deleted = deletions o 0 records ∧ result.exceededLimit = overflows o 0 records := by
  obtain ⟨result, hok, hupdated, hdeleted, hexceeded⟩ := foldlM_spec o records {}
  exact ⟨result, hok, by simpa using hupdated, by simpa using hdeleted, by simpa using hexceeded⟩

/-! ### What is looked at -/

theorem atLimit_mono {m n : ℕ} (hle : m ≤ n) (h : atLimit o m = true) : atLimit o n = true := by
  unfold atLimit at h ⊢
  cases hl : o.limit with
  | finite q =>
    rw [hl] at h
    simp only [numLe, decide_eq_true_eq] at h ⊢
    exact h.trans (by exact_mod_cast hle)
  | nan => rw [hl] at h; cases h
  | infinity => rw [hl] at h; cases h
  | negInfinity => rfl

/-- The limit is reached where as many records of the tenant have come by. -/
theorem atLimit_foldl (records : List LifecycleRecord) (processed : ℕ) :
    atLimit o (records.foldl (advance o) processed) =
      atLimit o (processed + records.countP (isOwn o)) := by
  induction records generalizing processed with
  | nil => simp
  | cons r records ih =>
    rw [List.foldl_cons, ih, List.countP_cons, advance]
    cases hown : isOwn o r with
    | false => simp
    | true =>
      cases hat : atLimit o processed with
      | false => simp [Nat.add_assoc, Nat.add_comm]
      | true =>
        simp only [Bool.not_true, Bool.and_false, Bool.false_eq_true, if_false, if_true]
        rw [atLimit_mono (Nat.le_add_right ..) hat, atLimit_mono (Nat.le_add_right ..) hat]

/-- The record at this place is among the first `batchLimit` of the tenant. -/
def inBatch (o : JobOptions) (records : List LifecycleRecord) (i : ℕ) : Bool :=
  !atLimit o ((records.take i).countP (isOwn o))

theorem sweep_getElem? (processed i : ℕ) (records : List LifecycleRecord) :
    (sweep o processed records)[i]? =
      records[i]?.map (swept o ((records.take i).foldl (advance o) processed)) := by
  induction records generalizing processed i with
  | nil => simp [sweep]
  | cons r records ih =>
    cases i with
    | zero => simp [sweep]
    | succ i => simp [sweep, ih]

/-- A pass deletes what is due in its batch, and nothing else. -/
theorem sweep_get (records : List LifecycleRecord) (i : ℕ) : (sweep o 0 records)[i]? =
    records[i]?.map fun r => if inBatch o records i && isDue o r then deletedRecord r else r := by
  rw [sweep_getElem?]
  unfold swept deletes inBatch
  simp only [atLimit_foldl, Nat.zero_add]

/-! ### One pass after another -/

theorem isOwn_swept (processed : ℕ) : isOwn o (swept o processed r) = isOwn o r := by
  unfold swept
  split_ifs <;> rfl

theorem isDue_deletedRecord : isDue o (deletedRecord r) = false := by
  rw [← Bool.not_eq_true, isDue_iff]
  simp [deletedRecord]

theorem map_sweep {α : Type} (f : LifecycleRecord → α) (hf : ∀ r, f (deletedRecord r) = f r)
    (processed : ℕ) (records : List LifecycleRecord) : (sweep o processed records).map f = records.map f := by
  induction records generalizing processed with
  | nil => rfl
  | cons r records ih =>
    have hswept : f (swept o processed r) = f r := by
      unfold swept
      split_ifs
      · exact hf r
      · rfl
    rw [sweep, List.map_cons, List.map_cons, hswept, ih]

/-- A second pass finds nothing that the first has left due in the batch. -/
theorem sweep_sweep (processed : ℕ) (records : List LifecycleRecord) :
    sweep o processed (sweep o processed records) = sweep o processed records := by
  induction records generalizing processed with
  | nil => rfl
  | cons r records ih =>
    have hadvance : advance o processed (swept o processed r) = advance o processed r := by
      rw [advance, advance, isOwn_swept]
    have hswept : swept o processed (swept o processed r) = swept o processed r := by
      by_cases h : deletes o processed r = true
      · have hagain : deletes o processed (deletedRecord r) = false := by
          simp [deletes, isDue_deletedRecord]
        simp [swept, h, hagain]
      · simp [swept, h]
    rw [sweep, sweep, hadvance, hswept, ih]

theorem deletions_eq (processed : ℕ) (records : List LifecycleRecord) : deletions o processed records =
    (records.zip (sweep o processed records)).countP fun p => p.1 ≠ p.2 := by
  induction records generalizing processed with
  | nil => rfl
  | cons r records ih =>
    have hchanged : decide (r ≠ swept o processed r) = deletes o processed r := by
      unfold swept
      cases h : deletes o processed r with
      | false => simp
      | true =>
        have hlive : r.deleted = false :=
          (isDue_iff.mp (Bool.and_eq_true_iff.mp h).2).2.2.1
        have hne : r ≠ deletedRecord r := fun heq => by
          have := congrArg LifecycleRecord.deleted heq
          rw [hlive] at this
          cases this
        simpa using hne
    rw [deletions, sweep, List.zip_cons_cons, List.countP_cons, hchanged, ih]
    omega

/-- What is still due after a pass lies beyond its limit. -/
theorem overflows_of_due (processed : ℕ) (records : List LifecycleRecord)
    (h : ∃ r ∈ sweep o processed records, isDue o r = true) : overflows o processed records = true := by
  induction records generalizing processed with
  | nil =>
    obtain ⟨r, hr, -⟩ := h
    cases hr
  | cons r records ih =>
    rw [overflows, Bool.or_eq_true]
    obtain ⟨r', hr', hdue⟩ := h
    rw [sweep, List.mem_cons] at hr'
    rcases hr' with rfl | hr'
    · left
      by_cases hdeletes : deletes o processed r = true
      · rw [swept, if_pos hdeletes, isDue_deletedRecord] at hdue
        cases hdue
      · rw [swept, if_neg hdeletes] at hdue
        have hat : atLimit o processed = true := by simpa [deletes, hdue] using hdeletes
        rw [(isDue_iff.mp hdue).1, hat]
        rfl
    · exact .inr (ih _ ⟨r', hr', hdue⟩)

end Pass

/-! ### Passes over their own output -/

/-- The records that the next pass is given. -/
def pass (o : JobOptions) (records : List LifecycleRecord) : List LifecycleRecord :=
  match runLifecycleJob records o with
  | .ok result => result.updated
  | .error _ => records

/-- What is to hold of one pass. -/
structure LawfulPass (o : JobOptions) (records : List LifecycleRecord) (result : LifecycleJobResult) :
    Prop where
  ids : result.updated.map (·.id) = records.map (·.id)
  /-- What is not due, so every foreign record and every one on hold, is returned as it is. -/
  changed : ∀ (i : ℕ) (r r' : LifecycleRecord), records[i]? = some r → result.updated[i]? = some r' →
    r' = r ∨ isDue o r = true ∧ r' = deletedRecord r
  deleted : result.deleted = (records.zip result.updated).countP fun p => p.1 ≠ p.2
  exceeded : (∃ r ∈ result.updated, isDue o r = true) → result.exceededLimit = true

/-- What is to hold of pass after pass. -/
structure Progress (o : JobOptions) (records : List LifecycleRecord) : Prop where
  passes : ∀ n, ∃ result, runLifecycleJob ((pass o)^[n] records) o = .ok result ∧
    (pass o)^[n + 1] records = result.updated ∧ LawfulPass o ((pass o)^[n] records) result
  /-- After finitely many passes, one, nothing is due among the first `batchLimit` of the tenant. -/
  done : ∀ (n i : ℕ) (r : LifecycleRecord), 0 < n → ((pass o)^[n] records)[i]? = some r → inBatch o records i = true →
    isDue o r = false
  /-- A record changes once, if at all. -/
  once : ∀ (n i : ℕ) (r : LifecycleRecord), records[i]? = some r → ((pass o)^[n] records)[i]? = some r ∨
    isDue o r = true ∧ ((pass o)^[n] records)[i]? = some (deletedRecord r)

section Runs
variable (o : JobOptions) (records : List LifecycleRecord)

theorem pass_eq : pass o records = sweep o 0 records := by
  obtain ⟨result, hok, hupdated, -⟩ := job_spec o records
  rw [pass, hok]
  exact hupdated

theorem lawful_pass : ∃ result, runLifecycleJob records o = .ok result ∧
    pass o records = result.updated ∧ LawfulPass o records result := by
  obtain ⟨result, hok, hupdated, hdeleted, hexceeded⟩ := job_spec o records
  refine ⟨result, hok, (pass_eq o records).trans hupdated.symm, ?_, fun i r r' hr hr' => ?_, ?_, ?_⟩
  · rw [hupdated]
    exact map_sweep _ (fun _ => rfl) 0 records
  · rw [hupdated, sweep_get, hr, Option.map_some, Option.some.injEq] at hr'
    subst hr'
    split_ifs with h
    · exact .inr ⟨(Bool.and_eq_true_iff.mp h).2, rfl⟩
    · exact .inl rfl
  · rw [hdeleted, hupdated, deletions_eq]
  · rw [hupdated, hexceeded]
    exact overflows_of_due 0 records

theorem pass_iterate (n : ℕ) : (pass o)^[n + 1] records = sweep o 0 records := by
  induction n with
  | zero => exact pass_eq o records
  | succ n ih => rw [Function.iterate_succ_apply', ih, pass_eq, sweep_sweep]

/-- For every list of records, limit, tenant and clock: every pass is lawful, what is due among the first
    `batchLimit` of the tenant is gone after the first, and no record is changed twice. -/
theorem job_progress : Progress o records where
  passes n := by
    obtain ⟨result, hok, hupdated, hlaws⟩ := lawful_pass o ((pass o)^[n] records)
    exact ⟨result, hok, (Function.iterate_succ_apply' ..).trans hupdated, hlaws⟩
  done n i r hn hr hbatch := by
    obtain ⟨m, rfl⟩ := Nat.exists_eq_succ_of_ne_zero hn.ne'
    rw [Nat.succ_eq_add_one, pass_iterate, sweep_get, Option.map_eq_some_iff] at hr
    obtain ⟨r₀, -, rfl⟩ := hr
    split_ifs with h
    · exact isDue_deletedRecord
    · simpa [hbatch] using h
  once n i r hr := by
    cases n with
    | zero => exact .inl hr
    | succ n =>
      rw [pass_iterate, sweep_get, hr, Option.map_some]
      split_ifs with h
      · exact .inr ⟨(Bool.and_eq_true_iff.mp h).2, rfl⟩
      · exact .inl rfl

end Runs

/-- A record of the tenant whose expiry has passed, not on hold and not deleted. -/
def isPastExpiry (o : JobOptions) (r : LifecycleRecord) : Bool :=
  isOwn o r && hasPassed r.expiresAt o.now && !r.legalHold && !r.deleted

/-- A record that is archived and whose expiry has passed. -/
def archivedRecord : LifecycleRecord :=
  { lasting with expiresAt := some (.finite 500), archived := true }

/-- No number of passes deletes it. -/
theorem archived_is_kept : ¬ ∃ n, ∀ r ∈ (pass { now := 1000 })^[n] [archivedRecord],
    isPastExpiry { now := 1000 } r = false := by
  rintro ⟨n, h⟩
  have hsame : (pass { now := 1000 })^[n] [archivedRecord] = [archivedRecord] := by
    cases n with
    | zero => rfl
    | succ n =>
      rw [pass_iterate]
      decide +kernel
  rw [hsame] at h
  exact absurd (h archivedRecord (List.mem_cons_self ..)) (by decide +kernel)

end Remembra.V6.Lifecycle
