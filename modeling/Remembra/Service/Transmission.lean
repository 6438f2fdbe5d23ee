import Remembra.Store.Record

/-! What a provider may receive: `evaluateTransmission` answers from the manifest and the tenant's rule
    alone, before anything is sent. -/

namespace Remembra.Service
open Store (SensitivityBand)

/-- `bandIndex`: the place in `SENSITIVITY_ORDER`. -/
def bandIndex : SensitivityBand → ℕ
  | .isPublic => 0
  | .internal => 1
  | .confidential => 2
  | .secret => 3

inductive Privacy where
  | isLocal | external
  deriving DecidableEq

/-- The fields of a provider's manifest that the gate reads. -/
structure Manifest where
  id : String
  privacy : Privacy
  maxSensitivity : SensitivityBand
  training : Bool := false
  logDays : ℕ := 0
  deriving DecidableEq

inductive TransmissionDecision where
  | allow (warnings : List String)
  | deny (reason : String)
  deriving DecidableEq

/-- What the caller of an allowed transmission should know. -/
def transmissionWarnings (manifest : Manifest) : List String :=
  (if manifest.training then ["provider_trains_on_data"] else []) ++
    if manifest.logDays > 0 then ["provider_retains_content"] else []

def evaluateTransmission (manifest : Manifest) (sensitivity : SensitivityBand)
    (tenantAllowsExternal : Bool) : TransmissionDecision :=
  if bandIndex sensitivity > bandIndex manifest.maxSensitivity then
    .deny "provider_sensitivity_ceiling"
  else if manifest.privacy = .external && !tenantAllowsExternal then
    .deny "tenant_forbids_external_transmission"
  else .allow (transmissionWarnings manifest)

/-- The decision is `allow`. -/
def TransmissionDecision.allows : TransmissionDecision → Bool
  | .allow _ => true
  | .deny _ => false

/-- A permit is the ceiling and the tenant's rule together. -/
theorem allows_iff {manifest : Manifest} {s : SensitivityBand} {external : Bool} :
    (evaluateTransmission manifest s external).allows = true ↔
      bandIndex s ≤ bandIndex manifest.maxSensitivity ∧
        (manifest.privacy = .external → external = true) := by
  unfold evaluateTransmission
  split_ifs with hband hrule
  · simp [TransmissionDecision.allows, Nat.not_le.mpr hband]
  · have hlocal : ¬(manifest.privacy = .external → external = true) := by simpa using hrule
    simp [TransmissionDecision.allows, hlocal]
  · have hlocal : manifest.privacy = .external → external = true := by simpa using hrule
    exact ⟨fun _ => ⟨Nat.not_lt.mp hband, hlocal⟩, fun _ => rfl⟩

/-- A permit for a band is one for every lower band. -/
theorem allows_of_le {manifest : Manifest} {s t : SensitivityBand} {external : Bool}
    (h : (evaluateTransmission manifest t external).allows = true)
    (hst : bandIndex s ≤ bandIndex t) :
    (evaluateTransmission manifest s external).allows = true := by
  rw [allows_iff] at h ⊢
  exact ⟨hst.trans h.1, h.2⟩

end Remembra.Service
