import Remembra.V6.Evaluator

/-! The direct operations of V6 behind their guard. A record of another organization and one that is not
    there are told apart by the reason in the message of `NOT_FOUND`: an operation on one record answers
    alike exactly where the call ends before the decision, or the two records are refused for one
    reason (`refusals_alike_iff`). What is refused writes nothing. -/

namespace Remembra.V6
open Store (SensitivityBand TrustLevel RetentionMode JsNum)

/-! ### The backend -/

structure GuardedRow where
  id : String
  organizationId : String
  projectId : Option String := none
  sensitivity : SensitivityBand
  trust : TrustLevel
  retention : RetentionMode
  legalHold : Option Bool := none
  expiresAt : Option JsNum := none
  content : Option String := none
  deriving DecidableEq

/-- `Partial<V6GuardedRow>`: the fields that are there. An optional one may be there as `undefined`. -/
structure RowPatch where
  id : Option String := none
  organizationId : Option String := none
  projectId : Option (Option String) := none
  sensitivity : Option SensitivityBand := none
  trust : Option TrustLevel := none
  retention : Option RetentionMode := none
  legalHold : Option (Option Bool) := none
  expiresAt : Option (Option JsNum) := none
  content : Option (Option String) := none

/-- `{ ...row, ...patch }` -/
def RowPatch.over (p : RowPatch) (row : GuardedRow) : GuardedRow where
  id := p.id.getD row.id
  organizationId := p.organizationId.getD row.organizationId
  projectId := p.projectId.getD row.projectId
  sensitivity := p.sensitivity.getD row.sensitivity
  trust := p.trust.getD row.trust
  retention := p.retention.getD row.retention
  legalHold := p.legalHold.getD row.legalHold
  expiresAt := p.expiresAt.getD row.expiresAt
  content := p.content.getD row.content

/-- A write that the backend has been asked for. -/
inductive Write where
  | put (row : GuardedRow)
  | delete (id : String)

/-- A backend that keeps what it is given. -/
structure Backend where
  rows : String → Option GuardedRow
  writes : List Write := []

def Backend.put (s : Backend) (row : GuardedRow) : Backend where
  rows id := if id = row.id then some row else s.rows id
  writes := s.writes ++ [.put row]

def Backend.delete (s : Backend) (id : String) : Backend where
  rows k := if k = id then none else s.rows k
  writes := s.writes ++ [.delete id]

/-! ### The operations -/

/-- `DIRECT_OPERATIONS` -/
inductive DirectOperation where
  | store | read | update | delete | archive | revive | history | relate | batch | snapshot
  deriving DecidableEq

def DirectOperation.text : DirectOperation → String
  | .store => "store"
  | .read => "read"
  | .update => "update"
  | .delete => "delete"
  | .archive => "archive"
  | .revive => "revive"
  | .history => "history"
  | .relate => "relate"
  | .batch => "batch"
  | .snapshot => "snapshot"

/-- `OPERATION_CLASS` -/
def DirectOperation.operationClass : DirectOperation → OperationClass
  | .store => .write
  | .read => .read
  | .update => .update
  | .delete => .delete
  | .archive => .update
  | .revive => .update
  | .history => .historyRead
  | .relate => .relationWrite
  | .batch => .read
  | .snapshot => .snapshotExport

/-- `requiresNotFoundNormalization` -/
def requiresNotFoundNormalization : DirectOperation → Bool
  | .read | .update | .delete => true
  | _ => false

def AuthMethod.text : AuthMethod → String
  | .localOperator => "local_operator"
  | .apiKey => "api_key"
  | .mtls => "mtls"
  | .oauthOidc => "oauth_oidc"
  | .applicationResolver => "application_resolver"

/-- `z.number().int().min(0)` accepts the number. -/
def isCount : JsNum → Bool
  | .finite q => q.den = 1 && 0 ≤ q
  | _ => false

/-- What `V6AuditEventSchema` asks of an event of this context; the values of the closed vocabularies
    are of their types. -/
def auditable (context : RequestContext) (now : JsNum) : Bool :=
  context.principal.organizationId ≠ "" && context.principal.organizationId.length ≤ 128 &&
    context.principal.projectId.all (·.length ≤ 128) && context.authMethod.text.length ≤ 32 &&
    isCount now

/-- `buildAuditEvent`: what it throws. -/
def buildAuditEvent (context : RequestContext) (now : JsNum) : Except RemembraError Unit :=
  if auditable context now then .ok ()
  else .error ⟨.ioError, "v6 audit event failed validation"⟩

def principalOf (context : RequestContext) : EvaluationPrincipal where
  organizationId := context.principal.organizationId
  projectId := context.principal.projectId
  capabilities := context.principal.capabilities.getD []
  clearance := context.principal.clearance

def rowOf (row : GuardedRow) : EvaluationMemory where
  organizationId := some row.organizationId
  projectId := row.projectId
  sensitivity := row.sensitivity
  trust := row.trust
  retention := row.retention
  legalHold := row.legalHold.getD false
  expiresAt := row.expiresAt

/-- The row that the guard decides on where there is none. -/
def absentRow (context : RequestContext) : EvaluationMemory where
  organizationId := some context.principal.organizationId
  sensitivity := .isPublic
  trust := .trusted
  retention := .persistent
  legalHold := false

/-- `deny` -/
def deny (operation : DirectOperation) (decision : Decision) : RemembraError :=
  if requiresNotFoundNormalization operation then
    ⟨.notFound, "memory not found (" ++ decision.reason.text ++ ")"⟩
  else ⟨.tenantRequired, "v6 " ++ operation.text ++ " refused: " ++ decision.reason.text⟩

structure BatchItem where
  id : String
  ok : Bool
  code : Option String := none
  reason : Option String := none
  row : Option GuardedRow := none

inductive Request where
  | store (row : GuardedRow)
  | read (id : String)
  | update (id : String) (patch : RowPatch)
  | delete (id : String)
  | archive (id : String)
  | revive (id : String)
  | history (ids : List String)
  | relate (ids : List String)
  | batch (ids : List String)
  | snapshot (ids : List String)

inductive Answer where
  | row (row : GuardedRow)
  | deleted (ok : Bool)
  | items (items : List BatchItem)

section Service
variable (number : ℚ → String) (now : JsNum) (context : RequestContext)

def decisionOn (operation : DirectOperation) (memory : EvaluationMemory) : Decision :=
  evaluateV6Policy {
    operation := operation.operationClass
    principal := principalOf context
    memory := memory
    now := now }

/-- `#guard` -/
protected def guard (operation : DirectOperation) (s : Backend) (id : String) :
    Except RemembraError GuardedRow := do
  assertFreshContext number context now
  match s.rows id with
  | none => do
    let decision := decisionOn now context operation (absentRow context)
    buildAuditEvent context now
    .error ⟨.notFound, "memory not found (" ++ decision.reason.text ++ ")"⟩
  | some row => do
    let decision := decisionOn now context operation (rowOf row)
    buildAuditEvent context now
    if decision.effect = .allow then .ok row else .error (deny operation decision)

/-- `#each` -/
def each (operation : DirectOperation) (s : Backend) (ids : List String) : List BatchItem :=
  ids.map fun id =>
    match V6.guard number now context operation s id with
    | .ok row => { id := id, ok := true, row := some row }
    | .error _ => { id := id, ok := false, code := some "NOT_FOUND", reason := some "refused" }

/-- `store`; the caller's row has no id of its own. -/
def store (row : GuardedRow) (s : Backend) : Except RemembraError Answer × Backend :=
  let pending := { row with id := "pending" }
  let decision := decisionOn now context .store (rowOf pending)
  match (assertFreshContext number context now).bind fun _ => buildAuditEvent context now with
  | .error e => (.error e, s)
  | .ok _ =>
    if decision.effect = .allow then (.ok (.row pending), s.put pending)
    else (.error (deny .store decision), s)

def update (id : String) (patch : RowPatch) (s : Backend) : Except RemembraError Answer × Backend :=
  match V6.guard number now context .update s id with
  | .error e => (.error e, s)
  | .ok row => (.ok (.row (patch.over row)), s.put (patch.over row))

/-- A call of `V6GuardedService`. -/
def call (request : Request) (s : Backend) : Except RemembraError Answer × Backend :=
  match request with
  | .store row => store number now context row s
  | .read id => ((V6.guard number now context .read s id).map .row, s)
  | .update id patch => update number now context id patch s
  | .delete id =>
    match V6.guard number now context .delete s id with
    | .error e => (.error e, s)
    | .ok _ => (.ok (.deleted (s.rows id).isSome), s.delete id)
  | .archive id => update number now context id {} s
  | .revive id => update number now context id {} s
  | .history ids => (.ok (.items (each number now context .history s ids)), s)
  | .relate ids => (.ok (.items (each number now context .relate s ids)), s)
  | .batch ids => (.ok (.items (each number now context .batch s ids)), s)
  | .snapshot ids => (.ok (.items (each number now context .snapshot s ids)), s)

end Service

/-! ### What a caller may not learn -/

/-- There is no row of the principal's organization. -/
def Hidden (context : RequestContext) (row : Option GuardedRow) : Prop :=
  ∀ r ∈ row, r.organizationId ≠ context.principal.organizationId

/-- The two states differ only in rows of other organizations. -/
def AgreeFor (context : RequestContext) (s₁ s₂ : Backend) : Prop :=
  ∀ id, s₁.rows id = s₂.rows id ∨
    Hidden context (s₁.rows id) ∧ Hidden context (s₂.rows id)

/-- The record that a request is about, if it is about one. -/
def Request.record : Request → Option String
  | .read id | .update id _ | .delete id | .archive id | .revive id => some id
  | _ => none

/-- The guard of this context comes to a decision. -/
def Decides (number : ℚ → String) (now : JsNum) (context : RequestContext) : Prop :=
  assertFreshContext number context now = .ok () ∧ auditable context now = true

def finiteExpiry (row : GuardedRow) : Bool := row.expiresAt.all isFinite

/-- The guard comes to no decision, or the record is in both states absent, or in both present with an
    expiry that is a finite number or none, or in both with another one. -/
def Unrevealing (number : ℚ → String) (now : JsNum) (context : RequestContext) (request : Request)
    (s₁ s₂ : Backend) : Prop :=
  ∀ id ∈ request.record, Decides number now context →
    (s₁.rows id).map finiteExpiry = (s₂.rows id).map finiteExpiry

section Laws
variable {number : ℚ → String} {now : JsNum} {context : RequestContext}
  {operation : DirectOperation} {s s₁ s₂ : Backend} {id : String}

/-- The reason that a guard gives for a record that the principal may not see. -/
def hiddenReason (now : JsNum) (context : RequestContext) (operation : DirectOperation)
    (row : Option GuardedRow) : Reason :=
  match row with
  | none => (decisionOn now context operation (absentRow context)).reason
  | some r => if finiteExpiry r then .tenantMismatch else .policyInvalid

theorem finite_of_auditable (h : auditable context now = true) : isFinite now = true := by
  simp only [auditable, Bool.and_eq_true] at h
  have hcount := h.2
  cases now with
  | finite q => rfl
  | nan => cases hcount
  | infinity => cases hcount
  | negInfinity => cases hcount

/-- A guard that decides on a record of another organization. -/
theorem decision_of_hidden (h : auditable context now = true) {row : GuardedRow}
    (hforeign : row.organizationId ≠ context.principal.organizationId) :
    decisionOn now context operation (rowOf row) =
      refuse (hiddenReason now context operation (some row)) := by
  have hmalformed : isMalformed ⟨operation.operationClass, principalOf context, rowOf row, [], now⟩ =
      !finiteExpiry row := by
    simp [isMalformed, finite_of_auditable h, principalOf, valid_organizationId, rowOf, finiteExpiry]
  unfold decisionOn
  change _ = refuse (if finiteExpiry row then .tenantMismatch else .policyInvalid)
  cases hexpiry : finiteExpiry row with
  | true =>
    rw [hexpiry] at hmalformed
    exact evaluate_foreign hmalformed (by simp [rowOf, principalOf, hforeign])
  | false =>
    rw [hexpiry] at hmalformed
    exact evaluate_malformed hmalformed

/-- What the guard of an operation on one record throws for a record that is hidden. -/
theorem guard_of_hidden (hdecides : Decides number now context)
    (hoperation : requiresNotFoundNormalization operation = true)
    (h : Hidden context (s.rows id)) : V6.guard number now context operation s id =
      .error ⟨.notFound, "memory not found (" ++
        (hiddenReason now context operation (s.rows id)).text ++ ")"⟩ := by
  obtain ⟨hfresh, haudit⟩ := hdecides
  unfold V6.guard
  cases hrow : s.rows id with
  | none => simp [hfresh, buildAuditEvent, haudit, hiddenReason, bind, Except.bind]
  | some row =>
    have hforeign := h row hrow
    simp [hfresh, buildAuditEvent, haudit, decision_of_hidden haudit hforeign, refuse, deny,
      hoperation, bind, Except.bind]

/-- A guard that comes to no decision does not look at the record. -/
theorem guard_of_undecided (h : ¬Decides number now context) :
    V6.guard number now context operation s₁ id = V6.guard number now context operation s₂ id := by
  unfold V6.guard
  cases hfresh : assertFreshContext number context now with
  | error e => rfl
  | ok u =>
    have haudit : auditable context now = false := eq_false_of_ne_true fun h' => h ⟨hfresh, h'⟩
    cases s₁.rows id <;> cases s₂.rows id <;> simp [buildAuditEvent, haudit, bind, Except.bind]

theorem guard_congr (h : s₁.rows id = s₂.rows id) :
    V6.guard number now context operation s₁ id = V6.guard number now context operation s₂ id := by
  unfold V6.guard
  rw [h]

/-- Whatever an absent record is refused for, it is not for being another's. -/
theorem hiddenReason_none (operation : DirectOperation) (h : auditable context now = true) :
    hiddenReason now context operation none ≠ .tenantMismatch ∧
      hiddenReason now context operation none ≠ .policyInvalid := by
  refine evaluate_own ?_ rfl rfl
  simp [isMalformed, finite_of_auditable h, principalOf, valid_organizationId, absentRow]

theorem hiddenReason_eq_iff (h : auditable context now = true) (row₁ row₂ : Option GuardedRow) :
    hiddenReason now context operation row₁ = hiddenReason now context operation row₂ ↔
      row₁.map finiteExpiry = row₂.map finiteExpiry := by
  obtain ⟨hmismatch, hinvalid⟩ := hiddenReason_none operation h
  cases row₁ with
  | none =>
    cases row₂ with
    | none => simp
    | some r =>
      refine iff_of_false (fun heq => ?_) (by simp)
      change hiddenReason now context operation none =
        if finiteExpiry r then .tenantMismatch else .policyInvalid at heq
      split at heq
      · exact hmismatch heq
      · exact hinvalid heq
  | some r =>
    cases row₂ with
    | none =>
      refine iff_of_false (fun heq => ?_) (by simp)
      change (if finiteExpiry r then .tenantMismatch else .policyInvalid) =
        hiddenReason now context operation none at heq
      split at heq
      · exact hmismatch heq.symm
      · exact hinvalid heq.symm
    | some r' =>
      change (if finiteExpiry r then Reason.tenantMismatch else .policyInvalid) =
        (if finiteExpiry r' then .tenantMismatch else .policyInvalid) ↔ _
      cases hr : finiteExpiry r <;> cases hr' : finiteExpiry r' <;> simp [hr, hr']

theorem text_injective {a b : Reason} (h : a.text = b.text) : a = b := by
  revert h
  cases a <;> cases b <;> decide

/-- Two guards on hidden records throw the same exactly where the reasons are the same. -/
theorem guard_eq_iff (hdecides : Decides number now context)
    (hoperation : requiresNotFoundNormalization operation = true)
    (h₁ : Hidden context (s₁.rows id)) (h₂ : Hidden context (s₂.rows id)) :
    V6.guard number now context operation s₁ id = V6.guard number now context operation s₂ id ↔
      (s₁.rows id).map finiteExpiry = (s₂.rows id).map finiteExpiry := by
  rw [guard_of_hidden hdecides hoperation h₁, guard_of_hidden hdecides hoperation h₂,
    ← hiddenReason_eq_iff hdecides.2 (s₁.rows id) (s₂.rows id)]
  refine ⟨fun h => text_injective ?_, fun h => by rw [h]⟩
  have htext := congrArg String.toList (congrArg RemembraError.message (Except.error.inj h))
  simp only [String.toList_append] at htext
  exact String.toList_injective (List.append_cancel_left (List.append_cancel_right htext))

/-- What the guard lets through is a record that the two states share. -/
theorem guard_ok (hagree : AgreeFor context s₁ s₂) {row : GuardedRow}
    (h : V6.guard number now context operation s₁ id = .ok row) : s₁.rows id = s₂.rows id := by
  rcases hagree id with hsame | ⟨hhidden, -⟩
  · exact hsame
  unfold V6.guard at h
  cases hfresh : assertFreshContext number context now with
  | error e => simp [hfresh, bind, Except.bind] at h
  | ok u =>
    cases haudit : auditable context now with
    | false => cases hrow : s₁.rows id <;> simp [hfresh, buildAuditEvent, haudit, hrow, bind, Except.bind] at h
    | true =>
      cases hrow : s₁.rows id with
      | none => simp [hfresh, buildAuditEvent, haudit, hrow, bind, Except.bind] at h
      | some r =>
        have hforeign := hhidden r hrow
        simp [hfresh, buildAuditEvent, haudit, hrow, decision_of_hidden haudit hforeign, refuse, bind,
          Except.bind] at h

theorem AgreeFor.symm (h : AgreeFor context s₁ s₂) : AgreeFor context s₂ s₁ :=
  fun id => (h id).imp Eq.symm And.symm

/-- What is made of the guard's answer for one record tells no more than the guard. -/
theorem outcome_iff (hagree : AgreeFor context s₁ s₂)
    (hoperation : requiresNotFoundNormalization operation = true)
    (answer : Backend → GuardedRow → Answer)
    (hanswer : s₁.rows id = s₂.rows id → answer s₁ = answer s₂) :
    (V6.guard number now context operation s₁ id).map (answer s₁) =
        (V6.guard number now context operation s₂ id).map (answer s₂) ↔
      (Decides number now context →
        (s₁.rows id).map finiteExpiry = (s₂.rows id).map finiteExpiry) := by
  by_cases hsame : s₁.rows id = s₂.rows id
  · refine iff_of_true ?_ fun _ => by rw [hsame]
    rw [guard_congr hsame, hanswer hsame]
  -- Two records that are not the same are both hidden, and the guard throws for both.
  have hthrows : (V6.guard number now context operation s₁ id).map (answer s₁) =
        (V6.guard number now context operation s₂ id).map (answer s₂) ↔
      V6.guard number now context operation s₁ id = V6.guard number now context operation s₂ id := by
    cases h₁ : V6.guard number now context operation s₁ id with
    | ok row => exact absurd (guard_ok hagree h₁) hsame
    | error e =>
      cases h₂ : V6.guard number now context operation s₂ id with
      | ok row => exact absurd (guard_ok hagree.symm h₂).symm hsame
      | error e' => simp [Except.map]
  rw [hthrows]
  by_cases hdecides : Decides number now context
  · obtain ⟨hhidden₁, hhidden₂⟩ := (hagree id).resolve_left hsame
    rw [guard_eq_iff hdecides hoperation hhidden₁ hhidden₂]
    simp [hdecides]
  · exact iff_of_true (guard_of_undecided hdecides) fun h => absurd h hdecides

/-- An operation on many records reports the same for each of them. -/
theorem each_eq (hagree : AgreeFor context s₁ s₂) (operation : DirectOperation) (ids : List String) :
    each number now context operation s₁ ids = each number now context operation s₂ ids := by
  refine List.map_congr_left fun id _ => ?_
  by_cases hsame : s₁.rows id = s₂.rows id
  · rw [guard_congr hsame]
  · cases h₁ : V6.guard number now context operation s₁ id with
    | ok row => exact absurd (guard_ok hagree h₁) hsame
    | error e =>
      cases h₂ : V6.guard number now context operation s₂ id with
      | ok row => exact absurd (guard_ok hagree.symm h₂).symm hsame
      | error e' => rfl

theorem update_fst (id : String) (patch : RowPatch) (s : Backend) :
    (update number now context id patch s).1 =
      (V6.guard number now context .update s id).map fun row => .row (patch.over row) := by
  unfold update
  cases V6.guard number now context .update s id <;> rfl

theorem delete_fst (id : String) (s : Backend) :
    (call number now context (.delete id) s).1 =
      (V6.guard number now context .delete s id).map fun _ => .deleted (s.rows id).isSome := by
  unfold call
  dsimp only
  cases V6.guard number now context .delete s id <;> rfl

end Laws

/-- A call that throws, and one on many records, leaves the backend as it is. -/
def Quiet (number : ℚ → String) (now : JsNum) (context : RequestContext) (request : Request)
    (s : Backend) : Prop :=
  (∀ e, (call number now context request s).1 = .error e →
      (call number now context request s).2 = s) ∧
    ∀ items, (call number now context request s).1 = .ok (.items items) →
      (call number now context request s).2 = s

theorem quiet (number : ℚ → String) (now : JsNum) (context : RequestContext) (request : Request)
    (s : Backend) : Quiet number now context request s := by
  have hupdate (id : String) (patch : RowPatch) :
      (∀ e, (update number now context id patch s).1 = .error e →
        (update number now context id patch s).2 = s) ∧
      ∀ items, (update number now context id patch s).1 = .ok (.items items) →
        (update number now context id patch s).2 = s := by
    unfold update
    cases V6.guard number now context .update s id with
    | error e => exact ⟨fun _ _ => rfl, fun _ _ => rfl⟩
    | ok row => exact ⟨by rintro _ ⟨⟩, by rintro _ ⟨⟩⟩
  cases request with
  | update id patch => exact hupdate id patch
  | archive id => exact hupdate id {}
  | revive id => exact hupdate id {}
  | delete id =>
    unfold Quiet call
    dsimp only
    cases V6.guard number now context .delete s id with
    | error e => exact ⟨fun _ _ => rfl, fun _ _ => rfl⟩
    | ok row => exact ⟨by rintro _ ⟨⟩, by rintro _ ⟨⟩⟩
  | store row =>
    unfold Quiet call store
    dsimp only
    cases (assertFreshContext number context now).bind fun _ => buildAuditEvent context now with
    | error e => exact ⟨fun _ _ => rfl, fun _ _ => rfl⟩
    | ok u =>
      dsimp only
      split
      · exact ⟨by rintro _ ⟨⟩, by rintro _ ⟨⟩⟩
      · exact ⟨fun _ _ => rfl, fun _ _ => rfl⟩
  | _ => exact ⟨fun _ _ => rfl, fun _ _ => rfl⟩

/-- Two states that differ in rows of other organizations answer a request alike exactly where it is on
    many records, or tells nothing about the one it is on; and what is refused writes nothing. -/
theorem refusals_alike_iff (number : ℚ → String) (now : JsNum) (context : RequestContext)
    (request : Request) (s₁ s₂ : Backend) (h : AgreeFor context s₁ s₂) :
    ((call number now context request s₁).1 = (call number now context request s₂).1 ↔
        Unrevealing number now context request s₁ s₂) ∧
      Quiet number now context request s₁ := by
  refine ⟨?_, quiet number now context request s₁⟩
  have hmany (operation : DirectOperation) (ids : List String) :
      (.ok (.items (each number now context operation s₁ ids)) : Except RemembraError Answer) =
        .ok (.items (each number now context operation s₂ ids)) := by
    rw [each_eq h]
  have hupdate (id : String) (patch : RowPatch) :
      (update number now context id patch s₁).1 = (update number now context id patch s₂).1 ↔
        (Decides number now context →
          (s₁.rows id).map finiteExpiry = (s₂.rows id).map finiteExpiry) := by
    rw [update_fst, update_fst]
    exact outcome_iff h rfl (fun _ row => .row (patch.over row)) fun _ => rfl
  have hone {id : String} (hrecord : request.record = some id) :
      (Decides number now context → (s₁.rows id).map finiteExpiry = (s₂.rows id).map finiteExpiry) ↔
        Unrevealing number now context request s₁ s₂ := by
    simp [Unrevealing, hrecord]
  cases request with
  | read id => exact (outcome_iff h rfl (fun _ row => .row row) fun _ => rfl).trans (hone rfl)
  | update id patch => exact (hupdate id patch).trans (hone rfl)
  | archive id => exact (hupdate id {}).trans (hone rfl)
  | revive id => exact (hupdate id {}).trans (hone rfl)
  | delete id =>
    rw [delete_fst, delete_fst]
    exact (outcome_iff h rfl (fun s _ => .deleted (s.rows id).isSome) fun hsame => by
      rw [hsame]).trans (hone rfl)
  | store row =>
    refine iff_of_true ?_ (by simp [Unrevealing, Request.record])
    unfold call store
    dsimp only
    cases (assertFreshContext number context now).bind fun _ => buildAuditEvent context now with
    | error e => rfl
    | ok u =>
      dsimp only
      split <;> rfl
  | history ids => exact iff_of_true (hmany _ ids) (by simp [Unrevealing, Request.record])
  | relate ids => exact iff_of_true (hmany _ ids) (by simp [Unrevealing, Request.record])
  | batch ids => exact iff_of_true (hmany _ ids) (by simp [Unrevealing, Request.record])
  | snapshot ids => exact iff_of_true (hmany _ ids) (by simp [Unrevealing, Request.record])

def foreignRow : GuardedRow where
  id := "m-1"
  organizationId := "org-b"
  sensitivity := .isPublic
  trust := .trusted
  retention := .decaying

def emptyBackend : Backend := { rows := fun _ => none }
def foreignBackend : Backend := { rows := fun id => if id = "m-1" then some foreignRow else none }

theorem backends_agree : AgreeFor organizationReader emptyBackend foreignBackend := by
  intro id
  right
  refine ⟨by rintro r ⟨⟩, fun r hr => ?_⟩
  have hforeign : r = foreignRow := by
    unfold foreignBackend at hr
    dsimp only at hr
    split at hr
    · exact (Option.some.inj hr).symm
    · cases hr
  rw [hforeign]
  decide

/-- A batch tells nothing about the record of the other organization. -/
theorem batch_reveals_nothing :
    ((call (fun q => toString q) (.finite 5) organizationReader (.batch ["m-1"]) emptyBackend).1 =
        (call (fun q => toString q) (.finite 5) organizationReader (.batch ["m-1"]) foreignBackend).1 ↔
      Unrevealing (fun q => toString q) (.finite 5) organizationReader (.batch ["m-1"]) emptyBackend
        foreignBackend) ∧
      Quiet (fun q => toString q) (.finite 5) organizationReader (.batch ["m-1"]) emptyBackend :=
  refusals_alike_iff _ _ _ _ _ _ backends_agree

/-- The message of a read does. -/
theorem read_reveals_record : AgreeFor organizationReader emptyBackend foreignBackend ∧
    (call (fun q => toString q) (.finite 5) organizationReader (.read "m-1") emptyBackend).1 ≠
      (call (fun q => toString q) (.finite 5) organizationReader (.read "m-1") foreignBackend).1 := by
  refine ⟨backends_agree, fun h => ?_⟩
  have hempty : (V6.guard (fun q => toString q) (.finite 5) organizationReader .read emptyBackend "m-1") =
      .error ⟨.notFound, "memory not found (authorized)"⟩ := by decide +kernel
  have hforeign : (V6.guard (fun q => toString q) (.finite 5) organizationReader .read foreignBackend "m-1") =
      .error ⟨.notFound, "memory not found (tenant_mismatch)"⟩ := by decide +kernel
  change (V6.guard _ _ _ _ emptyBackend "m-1").map Answer.row =
    (V6.guard _ _ _ _ foreignBackend "m-1").map Answer.row at h
  rw [hempty, hforeign] at h
  simp [Except.map] at h

end Remembra.V6
