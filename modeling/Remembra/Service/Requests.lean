import Remembra.Service.Snapshot

/-! The calls that write, all of them: those of `Operation`, the batches of updates and of deletions, and
    the import of a snapshot. A run is again a list of events over the calls under way. -/

namespace Remembra.Service
open Store (StoreInput)
open Prog

/-! ### Batches of updates and deletions -/

/-- What an item of a batch came to. -/
structure ItemOutcome (β : Type) where
  index : ℕ
  id : Option String
  result : Except Thrown β

/-- One item after another; a failure is the item's outcome. -/
def runItems {α β : Type} (run : α → Act β) (idOf : α → Option String) :
    ℕ → List α → Act (List (ItemOutcome β))
  | _, [] => pure []
  | index, item :: rest => do
    let result ← (run item).attempt
    let outcomes ← runItems run idOf (index + 1) rest
    pure (⟨index, idOf item, result⟩ :: outcomes)

section Batches
variable (C : Config)

def deleteItem (options : Options) (id : String) : Act String := do
  let ok ← forget C id options
  Act.ensure ok .notFound ("No memory with id " ++ id ++ ".")
  pure ("Deleted memory " ++ id ++ ".")

/-- The new version, and the text. -/
def updateItem (options : Options) (item : String × UpdateInput) : Act (ℤ × String) := do
  let memory ← update C item.1 item.2 options
  pure (memory.version, "Updated " ++ item.1 ++ ".")

/-- The ids of a batch: one to a hundred, none empty and no two the same. -/
def acceptsBatchIds (ids : List String) : Bool :=
  1 ≤ ids.length && ids.length ≤ maxBatchItems && ids.all (· ≠ "") && decide ids.Nodup

/-- `batch` with a list of ids to delete; `fits` is whether the request has at most `MAX_BATCH_BYTES`. -/
def batchDelete (fits : Bool) (ids : List String) (options : Options) :
    Act (List (ItemOutcome String)) := do
  Act.ensure (fits && acceptsBatchIds ids) .invalidInput C.inputIssue
  Prog.ofExcept (← Act.ask .refresh)
  runItems (deleteItem C options) some 0 ids

/-- `batch` with a list of updates. -/
def batchUpdate (fits : Bool) (items : List (String × UpdateInput)) (options : Options) :
    Act (List (ItemOutcome (ℤ × String))) := do
  Act.ensure (fits && acceptsBatchIds (items.map (·.1)) && items.all fun item => acceptsUpdate item.2)
    .invalidInput C.inputIssue
  Prog.ofExcept (← Act.ask .refresh)
  runItems (updateItem C options) (fun item => some item.1) 0 items

end Batches

/-! ### Requests -/

inductive Request where
  | operation (o : Operation)
  | batchUpdate (fits : Bool) (items : List (String × UpdateInput)) (options : Options)
  | batchDelete (fits : Bool) (ids : List String) (options : Options)
  | importSnapshot (data : Snapshot) (options : Options)

/-- The inputs that a request hands over. -/
def Request.inputs : Request → List StoreInput
  | .operation o => o.inputs
  | _ => []

/-- A job without its result. -/
def ignoringJob {α : Type} (p : Job α) : Job Unit := p >>= fun _ => pure ()

abbrev Requests := Pool Demand Demand.Answer Thrown Unit World

inductive RequestEvent where
  | call (r : Request)
  /-- The call in place `i` gets its next answer. -/
  | answer (i : ℕ)
  | configure (manifest : Manifest)

section Steps
variable (C : Config) (E : Environment) (fits : Snapshot → Bool)

def Request.program : Request → Job Unit
  | .operation o => lifted (o.program C)
  | .batchUpdate fits items options => lifted (ignoring (Service.batchUpdate C fits items options))
  | .batchDelete fits ids options => lifted (ignoring (Service.batchDelete C fits ids options))
  | .importSnapshot data options => ignoringJob (Service.importSnapshot C fits data options)

def requestStep (s : Requests) : RequestEvent → Option Requests
  | .call r => some { s.start (r.program C fits) with
      world := { s.world with inputs := s.world.inputs ++ r.inputs } }
  | .answer i => s.turn (handleDemand C E) i
  | .configure manifest => some { s with world := { s.world with manifest := manifest } }

end Steps

/-- The question that an event answers. -/
def questionOf (s : Requests) : RequestEvent → Option Demand
  | .answer i => match s.running[i]? with
    | some (Prog.ask q _) => some q
    | _ => none
  | _ => none

/-- No request is under way. -/
def idle (tables : Sqlite.Serial.Tables) (manifest : Manifest) : Requests :=
  ⟨[], { tables := tables, manifest := manifest }⟩

section Laws
variable {C : Config} {E : Environment} {fits : Snapshot → Bool} {s t : Requests} {e : RequestEvent}

/-- What a step does to the tables: what its question does to them, if it answers one. -/
theorem tables_requestStep (h : requestStep C E fits s e = some t) :
    t.world.tables = match questionOf s e with
      | none => s.world.tables
      | some q => (handleDemand C E q s.world).2.tables := by
  cases e with
  | call r =>
    cases h
    rfl
  | configure manifest =>
    cases h
    rfl
  | answer i =>
    obtain ⟨q, next, hi, rfl⟩ := Pool.turn_eq_some.mp h
    simp only [questionOf, hi]

end Laws

end Remembra.Service
