import Remembra.Idempotency.Record
import Remembra.TenantMigration.Canonical

/-! Whose claim is it? The HTTP server joins the credential, the tenant's principal and the agent of a request
    with separators that identifiers may contain themselves, and hashes the whole; the service encodes
    the identifiers once more, next to that hash, before it claims a key. So the scope under which it claims
    is that of one principal (`effectiveScope_eq_iff`), however the first text reads. -/

namespace Remembra.Idempotency
open Jobs (utf16Length)
open Service (TenantContext)
open Store (Yaml)
open TenantMigration (SameJson SameFields isJson holdJson jsonText jsonText_injective WritesNumbers
  canonicalJson_eq_iff)

/-- What the scopes are computed with. -/
structure Crypto extends TenantMigration.Platform where
  /-- `createHmac("sha256", key).update(text, "utf8").digest("hex")` -/
  hmacHex : String → String → String

/-- No two texts have one hash, and no two keys. -/
structure CollisionFree (C : Crypto) : Prop where
  digest : Function.Injective C.sha256
  hmac : ∀ text, Function.Injective fun key => C.hmacHex key text
  numbers : WritesNumbers C.toPlatform

/-- `batchIdempotencyScope` -/
def batchIdempotencyScope (C : Crypto) (value : String) : String := C.sha256 value

/-- `batchIdempotencyFingerprint` -/
def batchIdempotencyFingerprint (C : Crypto) (value : Yaml) : String := TenantMigration.sha256 C.toPlatform value

/-! ### The scope of a request -/

/-- What a request shows: a scope that the host has resolved, or the static key. -/
inductive Credential where
  | host (scope : String)
  | apiKey (key : String)
  deriving DecidableEq

/-- The credential of a request: the host's scope, where it has resolved one. -/
def credentialOf (apiKey credentialScope : Option String) : Except RemembraError Credential :=
  match credentialScope with
  | some scope =>
    if utf16Length scope < 1 ∨ utf16Length scope > 512 then
      .error ⟨.invalidInput, "resolved credential scope is invalid"⟩
    else .ok (.host scope)
  | none =>
    match apiKey.filter (· ≠ "") with
    | some key => .ok (.apiKey key)
    | none => .error ⟨.invalidInput,
        "idempotency keys require a static API key or trusted credential scope resolver"⟩

def Credential.text (C : Crypto) : Credential → String
  | .host scope => "host:" ++ batchIdempotencyScope C scope
  | .apiKey key => "api-key:" ++ C.hmacHex key "remembra-idempotency-credential"

def principalText : Option TenantContext → String
  | some tenant => ":".intercalate ["tenant", tenant.principal.organizationId.1,
      (tenant.principal.projectId.map (·.1)).getD "", (tenant.principal.userId.map (·.1)).getD "",
      (tenant.principal.agentId.map (·.1)).getD ""]
  | none => "legacy"

def agentText : Option String → String
  | some agentId => "agent:" ++ agentId
  | none => "no-agent"

/-- The separators are a backslash and a zero: the template escapes the backslash. -/
def idempotencyScopeFor (C : Crypto) (apiKey credentialScope : Option String) (tenant : Option TenantContext)
    (agentId : Option String) : Except RemembraError String :=
  (credentialOf apiKey credentialScope).map fun credential => batchIdempotencyScope C
    ("v5.4\\0" ++ credential.text C ++ "\\0" ++ principalText tenant ++ "\\0" ++ agentText agentId)

/-- `value ?? null` -/
def orNull : Option String → Yaml
  | some text => .str text
  | none => .null

/-- `effectiveIdempotencyScope` of `batch` -/
def effectiveIdempotencyScope (C : Crypto) (idempotencyScope : String) (tenant : Option TenantContext)
    (agentId : Option String) : String :=
  batchIdempotencyScope C (jsonText C.toPlatform (.map [
    ("credentialScope", .str idempotencyScope),
    ("organizationId", orNull (tenant.map (·.principal.organizationId.1))),
    ("projectId", orNull (tenant.bind fun t => t.principal.projectId.map (·.1))),
    ("userId", orNull (tenant.bind fun t => t.principal.userId.map (·.1))),
    ("tenantAgentId", orNull (tenant.bind fun t => t.principal.agentId.map (·.1))),
    ("agentId", orNull agentId)]))

/-! ### The principal -/

/-- Who makes a request; what a request lacks is `none`. -/
structure Principal where
  credential : Credential
  organizationId : Option String
  projectId : Option String
  userId : Option String
  tenantAgentId : Option String
  agentId : Option String
  deriving DecidableEq

def principalOf (credential : Credential) (tenant : Option TenantContext) (agentId : Option String) :
    Principal where
  credential := credential
  organizationId := tenant.map (·.principal.organizationId.1)
  projectId := tenant.bind fun t => t.principal.projectId.map (·.1)
  userId := tenant.bind fun t => t.principal.userId.map (·.1)
  tenantAgentId := tenant.bind fun t => t.principal.agentId.map (·.1)
  agentId := agentId

theorem orNull_injective : Function.Injective orNull := by
  rintro (_ | s) (_ | t) h
  · rfl
  · cases h
  · cases h
  · cases h
    rfl

theorem isJson_orNull (text : Option String) : isJson (orNull text) = true := by
  cases text <;> rfl

/-! ### Both scopes, from the principal alone -/

def Principal.tenantText (p : Principal) : String :=
  match p.organizationId with
  | some organizationId => ":".intercalate ["tenant", organizationId, p.projectId.getD "", p.userId.getD "",
      p.tenantAgentId.getD ""]
  | none => "legacy"

/-- The scope that the server computes. -/
def Principal.serverScope (C : Crypto) (p : Principal) : String :=
  batchIdempotencyScope C
    ("v5.4\\0" ++ p.credential.text C ++ "\\0" ++ p.tenantText ++ "\\0" ++ agentText p.agentId)

/-- What the service encodes, next to the scope of the server. -/
def Principal.fields (C : Crypto) (p : Principal) : List (String × Yaml) :=
  [("credentialScope", .str (p.serverScope C)), ("organizationId", orNull p.organizationId),
    ("projectId", orNull p.projectId), ("userId", orNull p.userId),
    ("tenantAgentId", orNull p.tenantAgentId), ("agentId", orNull p.agentId)]

/-- The scope of its claims. -/
def Principal.scope (C : Crypto) (p : Principal) : String :=
  batchIdempotencyScope C (jsonText C.toPlatform (.map (p.fields C)))

theorem isJson_fields (C : Crypto) (p : Principal) :
    isJson (.map (p.fields C)) = true := by
  simp [isJson, holdJson, Principal.fields, isJson_orNull]

/-- What the two functions come to for a request. -/
theorem effectiveScope_eq {C : Crypto} {apiKey credentialScope : Option String} {tenant : Option TenantContext}
    {agentId : Option String} {scope : String}
    (h : idempotencyScopeFor C apiKey credentialScope tenant agentId = .ok scope) :
    ∃ credential, credentialOf apiKey credentialScope = .ok credential ∧
      effectiveIdempotencyScope C scope tenant agentId = (principalOf credential tenant agentId).scope C := by
  rw [idempotencyScopeFor] at h
  cases hcredential : credentialOf apiKey credentialScope with
  | error e =>
    rw [hcredential] at h
    cases h
  | ok credential =>
    rw [hcredential] at h
    cases h
    cases tenant <;> exact ⟨credential, rfl, rfl⟩

section Injective
variable {C : Crypto} (hC : CollisionFree C)
include hC

theorem credentialText_injective : Function.Injective (Credential.text C) := by
  rintro (s | k) (s' | k') h
  · have hdigest : C.sha256 s = C.sha256 s' := by simpa [Credential.text, batchIdempotencyScope] using h
    rw [hC.digest hdigest]
  · have hhead := congrArg (fun text => text.toList.head?) h
    simp [Credential.text] at hhead
  · have hhead := congrArg (fun text => text.toList.head?) h
    simp [Credential.text] at hhead
  · have hhmac : C.hmacHex k "remembra-idempotency-credential" =
        C.hmacHex k' "remembra-idempotency-credential" := by simpa [Credential.text] using h
    rw [hC.hmac _ hhmac]

/-- The service writes every identifier apart from the others, and beside them the scope of the server, in
    which only the credential is left to tell. -/
theorem scope_injective : Function.Injective (Principal.scope C) := by
  intro p q h
  have hfields := jsonText_injective hC.numbers (isJson_fields C p) (isJson_fields C q) (hC.digest h)
  simp only [Principal.fields, Yaml.map.injEq, List.cons.injEq, Prod.mk.injEq, true_and, and_true,
    Yaml.str.injEq, orNull_injective.eq_iff] at hfields
  obtain ⟨hserver, horganization, hproject, huser, htenantAgent, hagent⟩ := hfields
  have htenant : p.tenantText = q.tenantText := by
    rw [Principal.tenantText, horganization, hproject, huser, htenantAgent]
    rfl
  have htext := hC.digest hserver
  rw [htenant, hagent] at htext
  have hcredential : p.credential.text C = q.credential.text C := by simpa using htext
  cases p
  cases q
  rw [Principal.mk.injEq]
  exact ⟨credentialText_injective hC hcredential, horganization, hproject, huser, htenantAgent, hagent⟩

/-- What the fingerprint of a request keeps. -/
theorem fingerprint_eq_iff {scope scope' : String} {request request' : Yaml}
    (hrequest : isJson request = true) (hrequest' : isJson request' = true) :
    batchIdempotencyFingerprint C (.map [("scope", .str scope), ("request", request)]) =
        batchIdempotencyFingerprint C (.map [("scope", .str scope'), ("request", request')]) ↔
      scope = scope' ∧ SameJson request request' := by
  have hjson : ∀ scope request, isJson request = true →
      isJson (.map [("scope", .str scope), ("request", request)]) = true := by
    intro scope request hrequest
    simp [isJson, holdJson, hrequest]
  rw [batchIdempotencyFingerprint, batchIdempotencyFingerprint, TenantMigration.sha256, TenantMigration.sha256,
    hC.digest.eq_iff, canonicalJson_eq_iff hC.numbers (hjson scope request hrequest)
      (hjson scope' request' hrequest')]
  rw [SameJson, SameFields, SameFields, SameFields]
  constructor
  · rintro ⟨-, ⟨value, hmem, hscope⟩, ⟨value', hmem', hsame⟩, -⟩
    have hvalue : value = .str scope' := by simpa using hmem
    have hvalue' : value' = request' := by simpa using hmem'
    subst hvalue hvalue'
    rw [SameJson] at hscope
    exact ⟨hscope, hsame⟩
  · rintro ⟨rfl, hsame⟩
    refine ⟨List.Perm.refl _, ⟨.str scope, by simp, ?_⟩, ⟨request', by simp, hsame⟩, trivial⟩
    rw [SameJson]

end Injective

end Remembra.Idempotency
