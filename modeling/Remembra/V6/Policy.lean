import Remembra.V6.Evaluator

/-! The policy evaluator of the policy model, beside the one that the guard uses. It knows six operations,
    throws where the clock is not finite or a layer is malformed, asks for the clearance before the expiry
    and for the layers last. The effect is the same (`same_effect`): an axis that refuses decides alone, in
    whatever place it stands, and the layers speak only where none does. -/

namespace Remembra.V6
open Store (SensitivityBand JsNum isValidTenantId)
open Service (bandIndex)

/-- `OPERATION_CLASSES` -/
inductive PolicyOperation where
  | read | write | update | delete | export | providerTransmit
  deriving DecidableEq

/-- `OPERATION_CAPABILITY` of the policy model. -/
def PolicyOperation.capability : PolicyOperation → String
  | .read => "tenant:read"
  | .write => "tenant:write"
  | .update => "tenant:write"
  | .delete => "tenant:write"
  | .export => "tenant:export"
  | .providerTransmit => "provider:transmit"

/-- The operation as one of `V6_OPERATION_CLASSES`. -/
def PolicyOperation.operationClass : PolicyOperation → OperationClass
  | .read => .read
  | .write => .write
  | .update => .update
  | .delete => .delete
  | .export => .export
  | .providerTransmit => .providerTransmit

structure PolicyPrincipal where
  organizationId : String
  projectId : String
  capabilities : List String := []
  clearance : Option SensitivityBand := none

/-- The principal as the other evaluator takes it. -/
def PolicyPrincipal.evaluated (p : PolicyPrincipal) : EvaluationPrincipal where
  organizationId := p.organizationId
  projectId := some p.projectId
  capabilities := p.capabilities
  clearance := p.clearance

/-- `PolicyInput`. A layer is what `PolicyLayerSchema.safeParse` makes of it: itself, or the first issue. -/
structure PolicyInput where
  operation : PolicyOperation
  principal : PolicyPrincipal
  memory : EvaluationMemory
  layers : Option (List (Except String PolicyLayer)) := none
  now : Option JsNum := none

/-- `failClosed`; the reason is the error's cause. -/
def failClosed (detail : String) : RemembraError := ⟨.invalidInput, "v6 policy: " ++ detail⟩

/-- A layer that the schema does not accept is a programming error. -/
def suppliedLayer (layer : Except String PolicyLayer) : Except RemembraError PolicyLayer :=
  layer.mapError fun issue => failClosed ("malformed policy layer: " ++ issue)

/-- The decision on an input that is well formed. -/
def decidePolicy (operation : PolicyOperation) (principal : PolicyPrincipal) (memory : EvaluationMemory)
    (supplied : List PolicyLayer) (now : JsNum) : Decision :=
  let clearance := principal.clearance.getD .isPublic
  if memory.organizationId.any (· ≠ principal.organizationId) then refuse .tenantMismatch
  else if memory.projectId.any (· ≠ principal.projectId) then refuse .projectMismatch
  else if operation.capability ∉ principal.capabilities then refuse .capabilityMissing
  else if operation = .providerTransmit && bandIndex clearance < bandIndex .internal then
    refuse .providerNotPermitted
  else if bandIndex clearance < bandIndex memory.sensitivity then refuse .sensitivityDenied
  else if memory.expiresAt.any fun t => isFinite t && numLe t now then refuse .expired
  else if memory.legalHold && operation = .delete then refuse .legalHold
  else if memory.trust = .unverified then refuse .trustRestricted
  -- asked a second time, where the answer is known
  else if operation = .providerTransmit && bandIndex clearance < bandIndex .internal then
    refuse .providerNotPermitted
  else (resolveLayers supplied).getD ⟨.allow, .authorized⟩

def evaluatePolicy (input : PolicyInput) : Except RemembraError Decision := do
  let now := input.now.getD (.finite 0)
  if !isFinite now then .error (failClosed "evaluation clock must be finite")
  else do
    let supplied ← (input.layers.getD []).mapM suppliedLayer
    .ok (decidePolicy input.operation input.principal input.memory supplied now)

section SameEffect
variable {operation : PolicyOperation} {principal : PolicyPrincipal} {memory : EvaluationMemory}
  {layers : List PolicyLayer} {now : JsNum}

/-- The input of well-formed layers and a clock. -/
def policyInput (operation : PolicyOperation) (principal : PolicyPrincipal) (memory : EvaluationMemory)
    (layers : List PolicyLayer) (now : JsNum) : PolicyInput where
  operation := operation
  principal := principal
  memory := memory
  layers := some (layers.map .ok)
  now := some now

/-- The same as the other evaluator takes it. -/
def evaluationInput (operation : PolicyOperation) (principal : PolicyPrincipal)
    (memory : EvaluationMemory) (layers : List PolicyLayer) (now : JsNum) : EvaluationInput where
  operation := operation.operationClass
  principal := principal.evaluated
  memory := memory
  policy := layers
  now := now

@[simp] theorem capability_operationClass (operation : PolicyOperation) :
    operation.operationClass.capability = operation.capability := by cases operation <;> rfl

theorem operationClass_eq_delete : operation.operationClass = .delete ↔ operation = .delete := by
  cases operation <;> simp [PolicyOperation.operationClass]

theorem operationClass_eq_transmit :
    operation.operationClass = .providerTransmit ↔ operation = .providerTransmit := by
  cases operation <;> simp [PolicyOperation.operationClass]

theorem mapM_suppliedLayer (layers : List PolicyLayer) :
    (layers.map Except.ok).mapM suppliedLayer = .ok layers := by
  induction layers with
  | nil => rfl
  | cons l layers ih => simp [suppliedLayer, Except.mapError, ih, bind, Except.bind, pure, Except.pure]

/-- What every axis permits is left to the layers. -/
theorem decidePolicy_permitted
    (hp : Permitted (evaluationInput operation principal memory layers now)) :
    decidePolicy operation principal memory layers now =
      (resolveLayers layers).getD ⟨.allow, .authorized⟩ := by
  have ho : memory.organizationId.any (· ≠ principal.organizationId) = false := hp.organization
  have hproject : memory.projectId.any (· ≠ principal.projectId) = false := by
    simpa [evaluationInput, PolicyPrincipal.evaluated] using hp.project
  have hcapability : operation.capability ∈ principal.capabilities :=
    capability_operationClass operation ▸ hp.capability
  have hprovider : ¬ (operation = .providerTransmit ∧
      bandIndex (principal.clearance.getD .isPublic) < bandIndex .internal) := fun h =>
    hp.provider ⟨operationClass_eq_transmit.mpr h.1, h.2⟩
  have hcover : ¬ bandIndex (principal.clearance.getD .isPublic) < bandIndex memory.sensitivity :=
    Nat.not_lt.mpr hp.clearance
  have hexpired : (memory.expiresAt.any fun t => isFinite t && numLe t now) = false := by
    have h : (memory.expiresAt.any fun t => numLe t now) = false := hp.unexpired
    cases he : memory.expiresAt with
    | none => rfl
    | some t =>
      rw [he] at h
      simp [show numLe t now = false from h]
  have hhold : ¬ (memory.legalHold = true ∧ operation = .delete) := fun h =>
    hp.hold ⟨h.1, operationClass_eq_delete.mpr h.2⟩
  have htrust : memory.trust ≠ .unverified := hp.trust
  unfold decidePolicy
  simp only [ho, hproject, hcapability, hcover, hexpired, htrust, not_true_eq_false,
    Bool.false_eq_true, Bool.and_eq_true, decide_eq_true_eq, if_false, hprovider, hhold]

theorem policy_permitted (hp : Permitted (evaluationInput operation principal memory layers now)) :
    (decidePolicy operation principal memory layers now).effect = layerEffect layers := by
  rw [decidePolicy_permitted hp, layerEffect]
  cases resolveLayers layers <;> rfl

/-- What an axis refuses is denied here too, whatever the layers; an expiry that is not finite would not
    be. -/
theorem decidePolicy_refused (hexpiry : memory.expiresAt.all isFinite = true)
    (hp : ¬ Permitted (evaluationInput operation principal memory layers now))
    (layers' : List PolicyLayer) :
    (decidePolicy operation principal memory layers now).effect = .deny ∧
      decidePolicy operation principal memory layers' now =
        decidePolicy operation principal memory layers now := by
  unfold decidePolicy
  dsimp only
  split_ifs with ho hproject hcapability hprovider hclearance hexpired hhold htrust
  any_goals exact ⟨rfl, rfl⟩
  refine absurd ?_ hp
  refine ⟨eq_false_of_ne_true ho, ?_, ?_, ?_, ?_, Nat.le_of_not_lt hclearance, ?_, htrust⟩
  · simpa [evaluationInput, PolicyPrincipal.evaluated] using hproject
  · simpa [evaluationInput, PolicyPrincipal.evaluated] using hcapability
  · simpa [evaluationInput, PolicyPrincipal.evaluated, operationClass_eq_transmit] using hprovider
  · cases he : memory.expiresAt with
    | none => simp [evaluationInput, he]
    | some t =>
      rw [he] at hexpiry hexpired
      simpa [evaluationInput, he, show isFinite t = true from hexpiry] using hexpired
  · simpa [evaluationInput, operationClass_eq_delete] using hhold

/-- The six operations, every principal with a valid identity, every memory whose expiry is finite or
    absent, every list of layers and every finite clock: the two evaluators have the same effect. -/
theorem same_effect (operation : PolicyOperation) (principal : PolicyPrincipal)
    (memory : EvaluationMemory) (layers : List PolicyLayer) (now : JsNum)
    (horganization : isValidTenantId principal.organizationId = true)
    (hexpiry : memory.expiresAt.all isFinite = true) (hnow : isFinite now = true) :
    (evaluatePolicy (policyInput operation principal memory layers now)).map (·.effect) =
      .ok (evaluateV6Policy (evaluationInput operation principal memory layers now)).effect := by
  have hwell : isMalformed (evaluationInput operation principal memory layers now) = false := by
    simp [isMalformed, evaluationInput, PolicyPrincipal.evaluated, hnow, horganization, hexpiry]
  have hdecides : evaluatePolicy (policyInput operation principal memory layers now) =
      .ok (decidePolicy operation principal memory layers now) := by
    simp only [evaluatePolicy, policyInput, Option.getD_some, hnow, mapM_suppliedLayer, Bool.not_true,
      Bool.false_eq_true, if_false, bind, Except.bind]
  rw [hdecides]
  refine congrArg Except.ok ?_
  by_cases hp : Permitted (evaluationInput operation principal memory layers now)
  · rw [evaluate_permitted hwell hp]
    exact policy_permitted hp
  · rw [evaluate_refused hp]
    exact (decidePolicy_refused hexpiry hp layers).1

end SameEffect

def projectReader : PolicyPrincipal where
  organizationId := "org-a"
  projectId := "p-1"
  capabilities := ["tenant:read"]

def expiredMemory : EvaluationMemory where
  sensitivity := .internal
  trust := .trusted
  retention := .decaying
  legalHold := false
  expiresAt := some (.finite 4)

/-- A reader without clearance, an internal memory that has expired and a layer that redacts. -/
theorem same_effect_expired :
    (evaluatePolicy (policyInput .read projectReader expiredMemory [⟨.tenant, .redact, .authorized⟩]
        (.finite 5))).map (·.effect) =
      .ok (evaluateV6Policy (evaluationInput .read projectReader expiredMemory
        [⟨.tenant, .redact, .authorized⟩] (.finite 5))).effect :=
  same_effect _ _ _ _ _ (by decide +kernel) rfl rfl

end Remembra.V6
