import Remembra.Service.Digest
import Remembra.Service.Transmission
import Remembra.Sqlite.Tenant

/-! The surroundings of the service: the tables of the SQLite backend, the manifest that is in force
    and the providers. Every text that a provider is called with is recorded, with what was known at
    that moment. A run of the service is a list of events: a call begins, one of the calls under way
    gets its next answer, or the operator changes the manifest. -/

namespace Remembra.Service
open Store (MemoryType SensitivityBand JsNum StoreInput)
open Sqlite.Serial (Tables Failure)

/-- What the world answers; a function of how many questions came before, so that every course of
    events is one of them. -/
structure Environment where
  tenantAllowsExternal : Bool := true
  clock : ℕ → ℤ
  /-- The clock and the new id of a write, by how many writes came before. -/
  writeClock : ℕ → ℤ
  newId : ℕ → String
  mayProceed : ℕ → Bool → Except Thrown Unit
  refresh : ℕ → Except Thrown Unit := fun _ => .ok ()
  verifyContext : ℕ → TenantContext → Bool
  embed : ℕ → String → Except Thrown (List JsNum)
  extract : ℕ → String → Except Thrown (List ExtractedMemory)
  merge : ℕ → String → MemoryType → String → Except Thrown Decision
  aborted : ℕ → Bool

/-- A content and its label: of a stored memory, or of an input. -/
structure Source where
  content : String
  label : SensitivityBand
  deriving DecidableEq

def rowSource (row : Sqlite.Row) : Source := ⟨row.content, row.sensitivity⟩

def inputSource (input : StoreInput) : Source := ⟨input.content, input.sensitivity.getD .isPublic⟩

/-- A call of a provider function: its texts, the manifest and the sources at that moment. -/
structure Transmission where
  texts : List String
  manifest : Manifest
  sources : List Source
  deriving DecidableEq

structure World where
  tables : Tables
  manifest : Manifest
  /-- The inputs handed to the service so far. -/
  inputs : List StoreInput := []
  asked : ℕ := 0
  writes : ℕ := 0
  sent : List Transmission := []

def World.sources (w : World) : List Source :=
  w.tables.memories.rows.map rowSource ++ w.inputs.map inputSource

/-- The gate lets the label pass. -/
def World.permits (E : Environment) (w : World) (label : SensitivityBand) : Bool :=
  (evaluateTransmission w.manifest label E.tenantAllowsExternal).allows

def ofFailure : Failure → Thrown
  | .refused e => .error e
  | .constraint => .other
  | .hook => .other

def World.tick (w : World) : World := { w with asked := w.asked + 1 }

/-- The world after a write. -/
def World.written (w : World) (tables : Tables) : World :=
  { w.tick with tables := tables, writes := w.writes + 1 }

def World.transmit (w : World) (texts : List String) : World :=
  { w.tick with sent := w.sent ++ [⟨texts, w.manifest, w.sources⟩] }

/-- `#assertMayTransmit`: what it throws, for a question that it is asked before. -/
def World.refusal (E : Environment) (w : World) (gate : Option SensitivityBand) : Option Thrown :=
  gate.bind fun label =>
    match evaluateTransmission w.manifest label E.tenantAllowsExternal with
    | .allow _ => none
    | .deny reason => some (.error ⟨.tenantRequired,
        "provider " ++ w.manifest.id ++ " refused this transmission: " ++ reason⟩)

/-- The gate refuses exactly what has no permit. -/
theorem refusal_eq_none {E : Environment} {w : World} {label : SensitivityBand} :
    w.refusal E (some label) = none ↔ w.permits E label = true := by
  unfold World.refusal World.permits
  cases h : evaluateTransmission w.manifest label E.tenantAllowsExternal <;>
    simp [h, TransmissionDecision.allows]

/-- A refusal is `TENANT_REQUIRED`. -/
theorem refusal_of_denied {E : Environment} {w : World} {label : SensitivityBand}
    (h : w.permits E label = false) :
    ∃ message, w.refusal E (some label) = some (.error ⟨.tenantRequired, message⟩) := by
  unfold World.permits at h
  unfold World.refusal
  cases hdecision : evaluateTransmission w.manifest label E.tenantAllowsExternal with
  | allow warnings => simp [hdecision, TransmissionDecision.allows] at h
  | deny reason =>
    refine ⟨"provider " ++ w.manifest.id ++ " refused this transmission: " ++ reason, ?_⟩
    simp only [Option.bind_some, hdecision]

section Handle
variable (C : Config) (E : Environment)

/-- An answer of the world. -/
def handle : (q : Ask) → World → q.Answer × World
  | .now, w => (E.clock w.asked, w.tick)
  | .mayProceed write, w => (E.mayProceed w.asked write, w.tick)
  | .refresh, w => (E.refresh w.asked, w.tick)
  | .verifyContext context, w => (E.verifyContext w.asked context, w.tick)
  | .get id tenant, w => (Sqlite.get w.tables.memories id tenant, w.tick)
  | .all includeArchived tenant, w => (w.tables.all includeArchived tenant, w.tick)
  | .store input embedding tenant, w =>
    let r := Tables.store C.backend w.tables (E.writeClock w.writes) (E.newId w.writes) input
      embedding tenant
    (r.1.mapError ofFailure, w.written r.2)
  | .update base patch options tenant, w =>
    let r := Tables.update C.backend w.tables (E.writeClock w.writes) (patch.over base) options tenant
    (r.1.mapError ofFailure, w.written r.2)
  | .archive id tenant, w =>
    let r := Tables.archive C.backend w.tables (E.writeClock w.writes) id tenant
    (r.1.mapError ofFailure, w.written r.2)
  | .revive id tenant, w =>
    let r := Tables.revive C.backend w.tables (E.writeClock w.writes) id tenant
    (r.1.mapError ofFailure, w.written r.2)
  | .forget id tenant, w =>
    let r := Tables.forget C.backend w.tables (E.writeClock w.writes) id tenant
    (r.1.mapError ofFailure, w.written r.2)
  | .embed gate text, w =>
    match w.refusal E gate with
    | some e => (.error e, w.tick)
    | none => (E.embed w.asked text, w.transmit [text])
  | .extract gate transcript, w =>
    match w.refusal E gate with
    | some e => (.error e, w.tick)
    | none => (E.extract w.asked transcript, w.transmit [transcript])
  | .merge newContent type content, w =>
    (E.merge w.asked newContent type content, w.transmit [newContent, content])
  | .aborted, w => (E.aborted w.asked, w.tick)

end Handle

/-! ### Runs -/

/-- A call of the service. -/
inductive Operation where
  | store (input : StoreInput) (options : Options)
  | batchStore (items : List StoreInput) (options : Options)
  | update (id : String) (input : UpdateInput) (options : Options)
  | archive (id : String) (options : Options)
  | revive (id : String) (options : Options)
  | forget (id : String) (options : Options)
  | relate (input : RelateInput) (options : Options)
  | embedMemory (id : String) (options : Options)
  | maintain (options : Options)
  | digest (input : DigestInput) (options : Options)
  | compress (input : CompressInput) (options : Options)
  | search (query : Option String) (options : Options)

def Operation.program (C : Config) : Operation → Act Unit
  | .store input options => ignoring (Service.store C input options none)
  | .batchStore items options => ignoring (batch C items options)
  | .update id input options => ignoring (Service.update C id input options)
  | .archive id options => ignoring (Service.archive C id options)
  | .revive id options => ignoring (Service.revive C id options)
  | .forget id options => ignoring (Service.forget C id options)
  | .relate input options => ignoring (Service.relate C input options)
  | .embedMemory id options => ignoring (Service.embedMemoryJob C id options)
  | .maintain options => ignoring (Service.maintain C options)
  | .digest input options => ignoring (Service.digest C input options)
  | .compress input options => ignoring (Service.compress C input options)
  | .search query options => ignoring (Service.queryVector C query options)

/-- The inputs that a call is handed. -/
def Operation.inputs : Operation → List StoreInput
  | .store input _ => [input]
  | .batchStore items _ => items
  | _ => []

abbrev Calls := Pool Ask Ask.Answer Thrown Unit World

inductive Event where
  | call (operation : Operation)
  /-- The call in place `i` gets its next answer. -/
  | answer (i : ℕ)
  | configure (manifest : Manifest)

section Steps
variable (C : Config) (E : Environment)

def step (s : Calls) : Event → Option Calls
  | .call operation => some { s.start (operation.program C) with
      world := { s.world with inputs := s.world.inputs ++ operation.inputs } }
  | .answer i => s.turn (handle C E) i
  | .configure manifest => some { s with world := { s.world with manifest := manifest } }

end Steps

/-- No call is under way and nothing has been sent. -/
def initial (tables : Tables) (manifest : Manifest) : Calls :=
  ⟨[], { tables := tables, manifest := manifest }⟩

/-! ### A service for examples -/

def asciiText : TextPlatform where
  lower s := .ofList (s.toList.map Char.toLower)
  isLetterOrNumber := Char.isAlphanum
  cosine _ _ := 0
  localeLe a b := a ≤ b

def plainConfig : Config where
  backend := Sqlite.Serial.tickingConfig
  text := asciiText
  injected _ := false

/-- Every call may go on, every text has the same vector and nothing is extracted. -/
def steady : Environment where
  clock n := n
  writeClock n := n
  newId n := "m-" ++ toString n
  mayProceed _ _ := .ok ()
  verifyContext _ _ := true
  embed _ _ := .ok [.finite 1]
  extract _ _ := .ok []
  merge _ _ _ _ := .ok .store
  aborted _ := false

end Remembra.Service
