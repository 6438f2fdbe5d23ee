import Mathlib.Data.List.Sort
import Remembra.V6.Context

/-! The policy evaluator of V6: one decision from a principal, a memory, an operation and the layers of
    explicit policy, with the clock as a parameter. -/

namespace Remembra.V6
open Store (SensitivityBand TrustLevel RetentionMode JsNum isValidTenantId)
open Service (bandIndex)

/-- `DECISION_EFFECTS` -/
inductive Effect where
  | allow | deny | redact | quarantine
  deriving DecidableEq

/-- `DECISION_REASONS` -/
inductive Reason where
  | authorized | tenantMismatch | projectMismatch | sensitivityDenied | expired | retentionDenied
  | trustRestricted | policyInvalid | providerNotPermitted | legalHold | capabilityMissing
  | injectionDetected
  deriving DecidableEq

def Reason.text : Reason → String
  | .authorized => "authorized"
  | .tenantMismatch => "tenant_mismatch"
  | .projectMismatch => "project_mismatch"
  | .sensitivityDenied => "sensitivity_denied"
  | .expired => "expired"
  | .retentionDenied => "retention_denied"
  | .trustRestricted => "trust_restricted"
  | .policyInvalid => "policy_invalid"
  | .providerNotPermitted => "provider_not_permitted"
  | .legalHold => "legal_hold"
  | .capabilityMissing => "capability_missing"
  | .injectionDetected => "injection_detected"

/-- `PRECEDENCE_ORDER` -/
inductive PolicySource where
  | system | tenant | resource | principal | memory | provider
  deriving DecidableEq

/-- The place in `PRECEDENCE_ORDER`. -/
def PolicySource.index : PolicySource → ℕ
  | .system => 0
  | .tenant => 1
  | .resource => 2
  | .principal => 3
  | .memory => 4
  | .provider => 5

/-- A decision; the policy version is the same for all. -/
structure Decision where
  effect : Effect
  reason : Reason
  deriving DecidableEq

structure EvaluationPrincipal where
  organizationId : String
  projectId : Option String := none
  capabilities : List String := []
  clearance : Option SensitivityBand := none

structure EvaluationMemory where
  organizationId : Option String := none
  projectId : Option String := none
  sensitivity : SensitivityBand
  trust : TrustLevel
  retention : RetentionMode
  legalHold : Bool
  expiresAt : Option JsNum := none

structure PolicyLayer where
  source : PolicySource
  effect : Effect
  reason : Reason

structure EvaluationInput where
  operation : OperationClass
  principal : EvaluationPrincipal
  memory : EvaluationMemory
  policy : List PolicyLayer := []
  now : JsNum

/-- `EFFECT_RANK` -/
def Effect.rank : Effect → ℕ
  | .allow => 0
  | .redact => 1
  | .quarantine => 2
  | .deny => 3

def refuse (reason : Reason) : Decision := ⟨.deny, reason⟩

/-- `validate`: the input is malformed. The values of the closed vocabularies are of their types. -/
def isMalformed (input : EvaluationInput) : Bool :=
  !isFinite input.now || !isValidTenantId input.principal.organizationId ||
    !input.memory.expiresAt.all isFinite

/-- The more restrictive layer, the earlier one of equals. -/
def moreRestrictive (best : Option PolicyLayer) (layer : PolicyLayer) : Option PolicyLayer :=
  match best with
  | none => some layer
  | some b => if b.effect.rank < layer.effect.rank then some layer else some b

def resolveLayers (layers : List PolicyLayer) : Option Decision :=
  let ordered := layers.insertionSort fun a b => a.source.index ≤ b.source.index
  (ordered.foldl moreRestrictive none).map fun best => ⟨best.effect, best.reason⟩

def evaluateV6Policy (input : EvaluationInput) : Decision :=
  let principal := input.principal
  let memory := input.memory
  let clearance := principal.clearance.getD .isPublic
  let layer := resolveLayers input.policy
  if isMalformed input then refuse .policyInvalid
  else if memory.organizationId.any (· ≠ principal.organizationId) then refuse .tenantMismatch
  else if memory.projectId.any (some · ≠ principal.projectId) then refuse .projectMismatch
  else match layer.filter fun l => l.effect = .deny with
    | some l => refuse l.reason
    | none =>
      if input.operation.capability ∉ principal.capabilities then refuse .capabilityMissing
      else if input.operation = .providerTransmit && bandIndex clearance < bandIndex .internal then
        refuse .providerNotPermitted
      else if memory.expiresAt.any fun t => numLe t input.now then refuse .expired
      else if bandIndex clearance < bandIndex memory.sensitivity then refuse .sensitivityDenied
      else if memory.legalHold && input.operation = .delete then refuse .legalHold
      else if memory.trust = .unverified then refuse .trustRestricted
      else layer.getD ⟨.allow, .authorized⟩

/-- What every axis but the layers asks for: that none of them refuses. -/
structure Permitted (input : EvaluationInput) : Prop where
  organization : input.memory.organizationId.any (· ≠ input.principal.organizationId) = false
  project : input.memory.projectId.any (some · ≠ input.principal.projectId) = false
  capability : input.operation.capability ∈ input.principal.capabilities
  provider : ¬ (input.operation = .providerTransmit ∧
    bandIndex (input.principal.clearance.getD .isPublic) < bandIndex .internal)
  unexpired : (input.memory.expiresAt.any fun t => numLe t input.now) = false
  clearance : bandIndex input.memory.sensitivity ≤
    bandIndex (input.principal.clearance.getD .isPublic)
  hold : ¬ (input.memory.legalHold = true ∧ input.operation = .delete)
  trust : input.memory.trust ≠ .unverified

/-- The effect of the layers, where no other axis refuses. -/
def layerEffect (layers : List PolicyLayer) : Effect :=
  ((resolveLayers layers).map (·.effect)).getD .allow

section Decisions
variable {input : EvaluationInput}

/-- A denial by the layers comes to the same before the other axes and after them. -/
theorem evaluate_permitted (h : isMalformed input = false) (hp : Permitted input) :
    (evaluateV6Policy input).effect = layerEffect input.policy := by
  obtain ⟨ho, hproject, hcapability, hprovider, hexpired, hclearance, hhold, htrust⟩ := hp
  have hcover := Nat.not_lt.mpr hclearance
  unfold evaluateV6Policy layerEffect
  simp only [h, ho, hproject, hexpired, Bool.false_eq_true, if_false]
  cases hlayer : resolveLayers input.policy with
  | none => simp [hcapability, hprovider, hcover, hhold, htrust]
  | some layer =>
    by_cases hdeny : layer.effect = .deny
    · simp [Option.filter, hdeny, refuse]
    · simp [Option.filter, hdeny, hcapability, hprovider, hcover, hhold, htrust]

/-- A guard that refuses was not taken where the decision is not to deny. -/
theorem not_refused {c : Prop} [Decidable c] {reason : Reason} {d : Decision}
    (h : (if c then refuse reason else d).effect ≠ .deny) : ¬ c ∧ d.effect ≠ .deny := by
  split at h
  case isTrue => exact absurd rfl h
  case isFalse hc => exact ⟨hc, h⟩

/-- What holds of a guard's reason and of the reason after it holds of both. -/
theorem reason_refuse {P : Reason → Prop} {c : Prop} [Decidable c] {reason : Reason} {d : Decision}
    (hr : P reason) (hd : P d.reason) : P (if c then refuse reason else d).reason := by
  split
  · exact hr
  · exact hd

/-- Where one axis refuses the effect is to deny, whatever the layers say. -/
theorem evaluate_refused (hp : ¬ Permitted input) : (evaluateV6Policy input).effect = .deny := by
  by_contra hne
  apply hp
  unfold evaluateV6Policy at hne
  dsimp only at hne
  obtain ⟨_, hne⟩ := not_refused hne
  obtain ⟨ho, hne⟩ := not_refused hne
  obtain ⟨hproject, hne⟩ := not_refused hne
  cases hlayer : (resolveLayers input.policy).filter fun l => l.effect = .deny with
  | some l =>
    rw [hlayer] at hne
    exact absurd rfl hne
  | none =>
  rw [hlayer] at hne
  obtain ⟨hcapability, hne⟩ := not_refused hne
  obtain ⟨hprovider, hne⟩ := not_refused hne
  obtain ⟨hexpired, hne⟩ := not_refused hne
  obtain ⟨hclearance, hne⟩ := not_refused hne
  obtain ⟨hhold, hne⟩ := not_refused hne
  obtain ⟨htrust, _⟩ := not_refused hne
  exact {
    organization := eq_false_of_ne_true ho
    project := eq_false_of_ne_true hproject
    capability := not_not.mp hcapability
    provider := by simpa using hprovider
    unexpired := eq_false_of_ne_true hexpired
    clearance := Nat.le_of_not_lt hclearance
    hold := by simpa using hhold
    trust := htrust }

/-- What is allowed is permitted on every axis. -/
theorem permitted_of_allow (h : (evaluateV6Policy input).effect = .allow) : Permitted input := by
  by_contra hp
  rw [evaluate_refused hp] at h
  cases h

/-- What belongs to another organization is refused for that and for nothing else, unless the input is
    malformed. -/
theorem evaluate_foreign (h : isMalformed input = false)
    (hforeign : input.memory.organizationId.any (· ≠ input.principal.organizationId) = true) :
    evaluateV6Policy input = refuse .tenantMismatch := by
  unfold evaluateV6Policy
  simp only [h, hforeign, Bool.false_eq_true, if_false, if_true]

theorem evaluate_malformed (h : isMalformed input = true) :
    evaluateV6Policy input = refuse .policyInvalid := by
  simp [evaluateV6Policy, h]

/-- A memory of the principal's organization is not refused as another's. -/
theorem evaluate_own (h : isMalformed input = false) (hlayers : input.policy = [])
    (hown : input.memory.organizationId = some input.principal.organizationId) :
    (evaluateV6Policy input).reason ≠ .tenantMismatch ∧
      (evaluateV6Policy input).reason ≠ .policyInvalid := by
  have hsame : input.memory.organizationId.any (· ≠ input.principal.organizationId) = false := by
    simp [hown]
  have hnone : resolveLayers input.policy = none := by rw [hlayers]; rfl
  unfold evaluateV6Policy
  simp only [h, hsame, hnone, Bool.false_eq_true, if_false, Option.filter_none]
  let Stays (reason : Reason) := reason ≠ .tenantMismatch ∧ reason ≠ .policyInvalid
  show Stays _
  iterate 7 apply reason_refuse (P := Stays) (by decide)
  decide

end Decisions

end Remembra.V6
