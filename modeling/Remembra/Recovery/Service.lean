import Remembra.Lib.Transition

/-! The recovery state of the service: a state in a durable store that any number of instances share,
    and in each instance a copy of it. A call runs from one `await` to the next without anybody else
    coming in between (`Call.start`, `Call.resumed`). What it awaits, the store or the backend, answers
    at a moment of its own (`State.serves`): a read takes its value then, a write has its effect then.
    A process that ends is one whose calls are not resumed any more, and a restart is a new instance. -/

namespace Remembra.Recovery

inductive RecoveryState where
  | healthy | degraded | recovering | failed | readOnly
  deriving DecidableEq

inductive RecoveryEvent where
  | ready | verified | degraded | storageError | recoveryStarted | readOnly | failed
  deriving DecidableEq

def transitionRecoveryState (current : RecoveryState) : RecoveryEvent → RecoveryState
  | .ready => if current = .recovering then .healthy else current
  | .verified => .healthy
  | .degraded | .storageError =>
    if current = .failed ∨ current = .readOnly then current else .degraded
  | .recoveryStarted => .recovering
  | .readOnly => .readOnly
  | .failed => .failed

structure Instance where
  recoveryState : RecoveryState := .recovering
  recoveryStateInitialized : Bool := false
  backendFallback : Bool
  deriving DecidableEq

inductive Operation where
  | initializeRecovery
  | enterReadOnly
  | verifyRecovery
  /-- `health()`, with what it finds of the restore gate. -/
  | health (restorePending : Bool)
  /-- The check of `refreshAndAssertWritable` and `refreshAndAssertMigrationWritable`, which ensure
      first that the state has been loaded, or that of `freshTenantFilter`, which does not. -/
  | write (ensures : Bool)
  /-- The check of a command that only calls `assertWritable()`. -/
  | assertWritable
  deriving DecidableEq

/-- What an awaited question is answered with. -/
inductive Answer (α : Type) where
  | ok (a : α)
  | error
  deriving DecidableEq

/-- What a call awaits, with the answer once it is there. -/
inductive Pc where
  /-- `read()` of `initializeRecovery`. -/
  | initializing (answer : Option (Answer (Option RecoveryState)))
  /-- `ensureRecoveryInitialized()`, which has nothing more to wait for. -/
  | ready
  /-- `read()` of `refreshDurableRecoveryState`. -/
  | refreshing (answer : Option (Answer (Option RecoveryState)))
  /-- `refreshDurableRecoveryState()`, which has nothing more to wait for. -/
  | refreshed
  /-- `all()` of the backend. -/
  | probing (answer : Option (Answer Unit))
  | writing (next : RecoveryState) (event : RecoveryEvent) (answer : Option (Answer Unit))
  /-- `applyRecoveryEvent()`, which has nothing more to wait for. -/
  | applied (event : RecoveryEvent)
  /-- The write of `Failed` in a `catch`, whose errors are ignored. -/
  | failing (answered : Bool)
  /-- Over; `true` is a return, and for the check of a write that it has passed. -/
  | over (returned : Bool)
  deriving DecidableEq

structure Call where
  inst : ℕ
  operation : Operation
  /-- `stateReady` of `health()`. -/
  stateReady : Bool
  pc : Pc
  deriving DecidableEq

structure State where
  durable : Option RecoveryState
  instances : List Instance := []
  calls : List Call := []
  deriving DecidableEq

/-- `assertRecoveryWritable` does not throw. -/
def Instance.writable (inst : Instance) : Bool :=
  inst.recoveryStateInitialized &&
    !(inst.recoveryState = .readOnly || inst.recoveryState = .failed || inst.recoveryState = .recovering)

def Call.start (inst : Instance) (i : ℕ) (operation : Operation) : Call where
  inst := i
  operation := operation
  stateReady := inst.recoveryStateInitialized
  pc :=
    match operation with
    | .initializeRecovery => if inst.recoveryStateInitialized then .over true else .initializing none
    | .enterReadOnly | .verifyRecovery | .health _ | .write true =>
      if inst.recoveryStateInitialized then .ready else .initializing none
    | .write false => if inst.recoveryStateInitialized then .refreshing none else .refreshed
    | .assertWritable => .over inst.writable

/-- The call throws; `health()` catches it. -/
def Call.throws (call : Call) (inst : Instance) : Instance × Call :=
  match call.operation with
  | .health _ =>
    let next := if inst.recoveryState = .readOnly then
      transitionRecoveryState inst.recoveryState .storageError
    else transitionRecoveryState inst.recoveryState .failed
    if call.stateReady ∧ next = .failed then (inst, { call with pc := .failing false })
    else ({ inst with recoveryState := next }, { call with pc := .over true })
  | _ => (inst, { call with pc := .over false })

/-- `applyRecoveryEvent`, up to its `await`. -/
def Call.apply (call : Call) (inst : Instance) (event : RecoveryEvent) : Call :=
  let next := transitionRecoveryState inst.recoveryState event
  if next = inst.recoveryState then { call with pc := .applied event }
  else { call with pc := .writing next event none }

/-- The call goes on to its next `await`. -/
def Call.resumed (call : Call) (inst : Instance) : Option (Instance × Call) :=
  match call.pc, call.operation with
  | .initializing (some (.ok persisted)), operation =>
    some ({ inst with
        recoveryState := persisted.getD inst.recoveryState
        recoveryStateInitialized := true },
      { call with pc := if operation = .initializeRecovery then .over true else .ready })
  | .initializing (some .error), _ =>
    some (call.throws { inst with recoveryState := .failed, recoveryStateInitialized := true })
  | .ready, .enterReadOnly =>
    let next := transitionRecoveryState inst.recoveryState .readOnly
    some ({ inst with recoveryState := next }, { call with pc := .writing next .readOnly none })
  | .ready, .verifyRecovery => some (inst, { call with pc := .probing none })
  | .ready, .health restorePending =>
    some (inst, { call with pc := if restorePending then .over true else .refreshing none })
  | .ready, .write _ => some (inst, { call with pc := .refreshing none })
  | .refreshing (some (.ok persisted)), _ =>
    if inst.recoveryState = .failed ∧ persisted ≠ some .failed then some (call.throws inst)
    else some ({ inst with recoveryState := persisted.getD inst.recoveryState },
      { call with pc := .refreshed })
  | .refreshing (some .error), _ => some (call.throws inst)
  | .refreshed, .write _ => some (inst, { call with pc := .over inst.writable })
  | .refreshed, .health _ => some (inst, { call with stateReady := true, pc := .probing none })
  | .probing (some (.ok ())), .verifyRecovery =>
    some (inst, { call with pc :=
      if inst.backendFallback then .writing .degraded .degraded none else .writing .healthy .verified none })
  | .probing (some .error), .verifyRecovery =>
    some ({ inst with recoveryState := .failed }, { call with pc := .failing false })
  | .probing (some (.ok ())), .health _ => some (inst, call.apply inst .ready)
  | .probing (some .error), .health _ => some (call.throws inst)
  | .writing _ _ (some (.ok ())), .enterReadOnly => some (inst, { call with pc := .over true })
  | .writing _ _ (some .error), .enterReadOnly =>
    some ({ inst with recoveryState := .failed }, { call with pc := .over false })
  | .writing next _ (some (.ok ())), .verifyRecovery =>
    some ({ inst with recoveryState := next }, { call with pc := .over true })
  | .writing _ _ (some .error), .verifyRecovery => some (inst, { call with pc := .over false })
  | .writing next event (some (.ok ())), .health _ =>
    some ({ inst with recoveryState := next }, { call with pc := .applied event })
  | .writing _ _ (some .error), .health _ => some (call.throws inst)
  | .applied event, .health _ =>
    some (inst, if event = .ready ∧ inst.backendFallback then call.apply inst .degraded
      else { call with pc := .over true })
  | .failing true, .verifyRecovery => some (inst, { call with pc := .over false })
  | .failing true, .health _ =>
    some ({ inst with recoveryState := .failed }, { call with pc := .over true })
  | _, _ => none

/-- How an awaited operation goes: a write can fail before it has had its effect or after. -/
inductive Outcome where
  | done | fails | failsLate
  deriving DecidableEq

def Outcome.answer {α : Type} (how : Outcome) (a : α) : Answer α :=
  if how = .done then .ok a else .error

/-- What a write leaves in the store. -/
def Outcome.leaves (how : Outcome) (next : RecoveryState) (durable : Option RecoveryState) :
    Option RecoveryState :=
  if how = .fails then durable else some next

/-- The store or the backend answers what the call awaits. -/
def State.serves (s : State) (k : ℕ) (how : Outcome) : Option State :=
  s.calls[k]?.bind fun call =>
    match call.pc with
    | .initializing none =>
      some { s with calls := s.calls.set k { call with pc := .initializing (how.answer s.durable) } }
    | .refreshing none =>
      some { s with calls := s.calls.set k { call with pc := .refreshing (how.answer s.durable) } }
    | .probing none =>
      some { s with calls := s.calls.set k { call with pc := .probing (how.answer ()) } }
    | .writing next event none =>
      some { s with
        durable := how.leaves next s.durable
        calls := s.calls.set k { call with pc := .writing next event (how.answer ()) } }
    | .failing false =>
      some { s with
        durable := how.leaves .failed s.durable
        calls := s.calls.set k { call with pc := .failing true } }
    | _ => none

def State.resumes (s : State) (k : ℕ) : Option State :=
  s.calls[k]?.bind fun call => s.instances[call.inst]?.bind fun inst =>
    (call.resumed inst).map fun (inst, next) =>
      { s with instances := s.instances.set call.inst inst, calls := s.calls.set k next }

inductive Event where
  /-- An instance is created. -/
  | boot (backendFallback : Bool)
  | call (i : ℕ) (operation : Operation)
  | serves (k : ℕ) (how : Outcome)
  | resumes (k : ℕ)
  deriving DecidableEq

def step (s : State) : Event → Option State
  | .boot backendFallback =>
    some { s with instances := s.instances ++ [{ backendFallback := backendFallback }] }
  | .call i operation =>
    s.instances[i]?.map fun inst => { s with calls := s.calls ++ [Call.start inst i operation] }
  | .serves k how => s.serves k how
  | .resumes k => s.resumes k

end Remembra.Recovery
