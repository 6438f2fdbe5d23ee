import Remembra.Idempotency.Ledger
import Remembra.Lib.Fs
import Remembra.Lib.Transition

/-! The batch idempotency store over one ledger directory: any number of callers, each a process at a
    call, share the database and the file `restore.pending`. A transaction is one step, and so is each
    call to the file system; a caller may die between two of its steps.

    Beside what is durable, the model records what each `claim`, `complete` and `abandon` was answered,
    in the order in which they were decided; the gate held since a `beginRestore` has returned; and the
    generations whose gate `completeRestore` has cleared. -/

namespace Remembra.Idempotency
open Transition

inductive BatchRestoreReason where
  | restore | migration
  deriving DecidableEq

def BatchRestoreReason.name : BatchRestoreReason → String
  | .restore => "restore"
  | .migration => "migration"

/-- What the bytes of a marker parse to; `version` is `none` when it is no safe integer. -/
inductive Marker where
  | unreadable
  | record (format : String) (version : Option ℤ) (reason : Option String)
  deriving DecidableEq

/-- The marker that `beginRestore` writes. -/
def Marker.of (reason : BatchRestoreReason) : Marker :=
  .record "remembra-batch-restore" (some 2) (some reason.name)

def readRestoreMarkerReason : Option Marker → Option BatchRestoreReason
  | some (.record format (some version) reason) =>
    if format ≠ "remembra-batch-restore" then none
    else if version = 1 then some .restore
    else if reason = some "restore" then some .restore
    else if reason = some "migration" then some .migration
    else none
  | _ => none

theorem readRestoreMarkerReason_of (reason : BatchRestoreReason) :
    readRestoreMarkerReason (some (.of reason)) = some reason := by
  cases reason <;> decide

variable (V : Type*)

/-- The calls that work on a claim. -/
inductive Mutation where
  | claim (input : BatchIdempotencyInput)
  | complete (input : BatchIdempotencyInput) (response : V)
  | abandon (input : BatchIdempotencyInput)
  deriving DecidableEq

inductive Answer where
  | claimed (claim : BatchIdempotencyClaim V)
  | void
  deriving DecidableEq

/-- How a call was answered, in which generation of the ledger, and whether a gate was held. -/
structure Event where
  mutation : Mutation V
  result : Except RemembraError (Answer V)
  generation : ℕ
  gated : Bool
  deriving DecidableEq

/-- Where a caller stands. -/
inductive Phase where
  | idle
  /-- `this.restorePending` looks for the marker, then reads the flag. -/
  | checksMarker (mutation : Mutation V)
  | checksFlag (mutation : Mutation V)
  | transacts (mutation : Mutation V)
  /-- `beginRestore`, from the flag to the marker. -/
  | publishes (reason : BatchRestoreReason)
  | looksForMarker (reason : BatchRestoreReason)
  | opens (reason : BatchRestoreReason)
  | writes (reason : BatchRestoreReason) (inode : ℕ)
  | syncs (reason : BatchRestoreReason)
  | chmods (reason : BatchRestoreReason)
  | reverts
  /-- `completeRestore`, from the marker to the claims. -/
  | stats
  | unlinks
  | syncsDirectory
  /-- `invalidate`, called by `completeRestore` or directly. -/
  | invalidates (restored : Bool)

/-- A gate that is held, and the generation it was begun in. -/
structure Gate where
  reason : BatchRestoreReason
  generation : ℕ

structure State where
  db : Db
  files : Fs String Marker
  callers : ℕ → Phase V
  held : Option Gate
  restored : List ℕ
  log : List (Event V)

/-- What a caller may call. -/
inductive Call where
  | mutate (mutation : Mutation V)
  | beginRestore (reason : BatchRestoreReason)
  | completeRestore
  | invalidate

inductive Action where
  | calls (caller : ℕ) (call : Call V)
  | goesOn (caller : ℕ) (now : ℤ)
  /-- The caller's next call to the file system fails. -/
  | fails (caller : ℕ)
  | dies (caller : ℕ)

variable {V}

def init : State V := ⟨.new, .empty .unreadable, fun _ => .idle, none, [], []⟩

def restoreMarkerPath : String := "restore.pending"

/-- The marker file, as it can be read now. -/
def State.marker (s : State V) : Option Marker := s.files.read restoreMarkerPath

def State.restoreMarkerExists (s : State V) : Bool := (s.files.dir restoreMarkerPath).isSome

def State.restorePending (s : State V) : Bool := s.restoreMarkerExists || s.db.restorePending

def State.restoreReason (s : State V) : Option BatchRestoreReason :=
  if s.restorePending then readRestoreMarkerReason s.marker else none

def Call.first : Call V → Phase V
  | .mutate mutation => .checksMarker mutation
  | .beginRestore reason => .publishes reason
  | .completeRestore => .stats
  | .invalidate => .invalidates false

def State.goto (s : State V) (caller : ℕ) (phase : Phase V) : State V :=
  { s with callers := Function.update s.callers caller phase }

/-- A call on a claim returns or throws. -/
def State.answer (s : State V) (caller : ℕ) (mutation : Mutation V)
    (result : Except RemembraError (Answer V)) (db : Db) : State V :=
  { s.goto caller .idle with
    db := db
    log := s.log ++ [⟨mutation, result, s.db.generation, s.held.isSome⟩] }

/-- `beginRestore` returns. -/
def State.begun (s : State V) (caller : ℕ) (reason : BatchRestoreReason) : State V :=
  { s.goto caller .idle with held := some ⟨reason, s.db.generation⟩ }

section Step
variable (P : Platform V) (o : Options)

def perform (mutation : Mutation V) (now : ℤ) (db : Db) : Except RemembraError (Answer V) × Db :=
  match mutation with
  | .claim input =>
    let (result, db) := claim P o input now db
    (result.map .claimed, db)
  | .complete input response =>
    let (result, db) := complete P o input response now db
    (result.map fun _ => .void, db)
  | .abandon input =>
    let (result, db) := abandon P input db
    (result.map fun _ => .void, db)

/-- The next step of a caller. -/
def goesOn (s : State V) (caller : ℕ) (now : ℤ) : Option (State V) :=
  match s.callers caller with
  | .idle => none
  | .checksMarker mutation => some <|
    if s.restoreMarkerExists then s.answer caller mutation (.error restoreIsPending) s.db
    else s.goto caller (.checksFlag mutation)
  | .checksFlag mutation => some <|
    if s.db.restorePending then s.answer caller mutation (.error restoreIsPending) s.db
    else s.goto caller (.transacts mutation)
  | .transacts mutation =>
    let (result, db) := perform P o mutation now s.db
    some (s.answer caller mutation result db)
  | .publishes reason =>
    match publish s.db with
    | (.error _, db) => some ({ s with db := db }.goto caller .idle)
    | (.ok (), db) => some ({ s with db := db }.goto caller (.looksForMarker reason))
  | .looksForMarker reason => some <|
    if s.restoreMarkerExists then s.begun caller reason else s.goto caller (.opens reason)
  | .opens reason =>
    match s.files.createExcl restoreMarkerPath .unreadable with
    | none => some (s.begun caller reason)
    | some (files, inode) => some ({ s with files := files }.goto caller (.writes reason inode))
  | .writes reason inode =>
    some ({ s with files := s.files.writeTo inode (.of reason) }.goto caller (.syncs reason))
  | .syncs reason => some (s.goto caller (.chmods reason))
  | .chmods reason => some <|
    if s.restoreMarkerExists then s.begun caller reason else s.goto caller .reverts
  | .reverts => some ({ s with db := revert s.db, held := none }.goto caller .idle)
  | .stats => some <|
    if s.restoreMarkerExists then s.goto caller .unlinks else s.goto caller (.invalidates true)
  | .unlinks => some <|
    if s.restoreMarkerExists then
      { s with files := s.files.unlink restoreMarkerPath }.goto caller .syncsDirectory
    else s.goto caller (.invalidates true)
  | .syncsDirectory => some (s.goto caller (.invalidates true))
  | .invalidates restored =>
    match invalidate s.db with
    | (.error _, db) => some ({ s with db := db }.goto caller .idle)
    | (.ok (), db) => some <|
      if restored then { s with
        db := db
        held := none
        restored := s.restored ++ s.held.toList.map Gate.generation }.goto caller .idle
      else { s with db := db }.goto caller .idle

/-- What follows a failure of the file system. -/
def fails (s : State V) (caller : ℕ) : Option (State V) :=
  match s.callers caller with
  | .looksForMarker _ | .opens _ | .writes _ _ | .syncs _ | .chmods _ => some (s.goto caller .reverts)
  | .stats | .unlinks | .syncsDirectory => some (s.goto caller .idle)
  | _ => none

def step (s : State V) : Action V → Option (State V)
  | .calls caller call =>
    match s.callers caller with
    | .idle => some (s.goto caller call.first)
    | _ => none
  | .goesOn caller now => goesOn P o s caller now
  | .fails caller => fails s caller
  | .dies caller => some (s.goto caller .idle)

end Step

/-! ### What a step does to the claims -/

variable {P : Platform V} {o : Options} {s t : State V} {a : Action V}

/-- A call on a claim that is refused for the gate, by its first two looks. -/
def TurnedAway (s : State V) (a : Action V) (mutation : Mutation V) : Prop :=
  ∃ caller now, a = .goesOn caller now ∧
    (s.callers caller = .checksMarker mutation ∧ s.restoreMarkerExists = true ∨
      s.callers caller = .checksFlag mutation ∧ s.db.restorePending = true)

/-- What a step may do to the claims and the log. -/
inductive Effect (P : Platform V) (o : Options) (s t : State V) (a : Action V) : Prop where
  | none (claims : t.db.claims = s.db.claims) (generation : t.db.generation = s.db.generation)
      (log : t.log = s.log)
  | turnedAway (mutation : Mutation V) (away : TurnedAway s a mutation) (db : t.db = s.db)
      (log : t.log =
        s.log ++ [⟨mutation, .error restoreIsPending, s.db.generation, s.held.isSome⟩])
  | performs (caller : ℕ) (now : ℤ) (mutation : Mutation V) (action : a = .goesOn caller now)
      (phase : s.callers caller = .transacts mutation) (db : t.db = (perform P o mutation now s.db).2)
      (log : t.log = s.log ++
        [⟨mutation, (perform P o mutation now s.db).1, s.db.generation, s.held.isSome⟩])
  | invalidates (db : t.db = ⟨.empty, s.db.generation + 1, false⟩) (log : t.log = s.log)

theorem publish_cases (db : Db) :
    (∃ e, publish db = (.error e, db)) ∨
      db.restorePending = false ∧ publish db = (.ok (), { db with restorePending := true }) := by
  rcases immediate_cases publishTransaction db with he | ⟨⟨⟩, after, hbody, hok⟩
  · exact .inl he
  · right
    rw [publishTransaction] at hbody
    split at hbody
    · cases hbody
    split at hbody
    · cases hbody
    rename_i hopen _
    cases hbody
    exact ⟨Bool.eq_false_iff.mpr hopen, hok⟩

theorem invalidate_cases (db : Db) :
    (∃ e, invalidate db = (.error e, db)) ∨
      invalidate db = (.ok (), ⟨.empty, db.generation + 1, false⟩) := by
  rcases immediate_cases invalidateTransaction db with he | ⟨⟨⟩, after, hbody, hok⟩
  · exact .inl he
  · right
    rw [invalidateTransaction] at hbody
    split at hbody
    · cases hbody
    · cases hbody
      exact hok

theorem step_effect (h : step P o s a = some t) : Effect P o s t a := by
  cases a with
  | calls caller call =>
    rw [step] at h
    split at h
    · cases h
      exact .none rfl rfl rfl
    · cases h
  | fails caller =>
    rw [step, fails] at h
    split at h
    all_goals cases h <;> exact .none rfl rfl rfl
  | dies caller =>
    cases h
    exact .none rfl rfl rfl
  | goesOn caller now =>
    rw [step, goesOn] at h
    cases hphase : s.callers caller <;> rw [hphase] at h <;> dsimp only at h
    case idle => cases h
    case checksMarker mutation =>
      obtain rfl := Option.some.inj h
      by_cases hexists : s.restoreMarkerExists = true
      · rw [if_pos hexists]
        exact .turnedAway mutation ⟨caller, now, rfl, .inl ⟨hphase, hexists⟩⟩ rfl rfl
      · rw [if_neg hexists]
        exact .none rfl rfl rfl
    case checksFlag mutation =>
      obtain rfl := Option.some.inj h
      by_cases hflag : s.db.restorePending = true
      · rw [if_pos hflag]
        exact .turnedAway mutation ⟨caller, now, rfl, .inr ⟨hphase, hflag⟩⟩ rfl rfl
      · rw [if_neg hflag]
        exact .none rfl rfl rfl
    case transacts mutation =>
      obtain rfl := Option.some.inj h
      exact .performs caller now mutation rfl hphase rfl rfl
    case publishes reason =>
      rcases publish_cases s.db with ⟨e, he⟩ | ⟨-, hok⟩
      · rw [he] at h
        cases h
        exact .none rfl rfl rfl
      · rw [hok] at h
        cases h
        exact .none rfl rfl rfl
    case opens reason =>
      split at h <;> cases h <;> exact .none rfl rfl rfl
    case reverts =>
      cases h
      have hclaims : (revert s.db).claims = s.db.claims ∧ (revert s.db).generation = s.db.generation := by
        rw [revert]
        split <;> exact ⟨rfl, rfl⟩
      exact .none hclaims.1 hclaims.2 rfl
    case invalidates restored =>
      rcases invalidate_cases s.db with ⟨e, he⟩ | hok
      · rw [he] at h
        cases h
        exact .none rfl rfl rfl
      · rw [hok] at h
        cases restored <;> cases h <;> exact .invalidates rfl rfl
    all_goals
      obtain rfl := Option.some.inj h
      try split
      all_goals exact .none rfl rfl rfl

def Action.caller : Action V → ℕ
  | .calls caller _ | .goesOn caller _ | .fails caller | .dies caller => caller

/-- A step moves no caller but its own. -/
theorem step_callers (h : step P o s a = some t) {c : ℕ} (hc : c ≠ a.caller) :
    t.callers c = s.callers c := by
  have hmove : ∀ phase : Phase V, Function.update s.callers a.caller phase c = s.callers c :=
    fun _ => Function.update_of_ne hc ..
  cases a with
  | calls caller call =>
    rw [step] at h
    split at h
    · cases h
      exact hmove _
    · cases h
  | fails caller =>
    rw [step, fails] at h
    split at h
    all_goals cases h <;> exact hmove _
  | dies caller =>
    cases h
    exact hmove _
  | goesOn caller now =>
    rw [step, goesOn] at h
    cases hphase : s.callers caller <;> rw [hphase] at h <;> dsimp only at h
    case idle => cases h
    case publishes reason => split at h <;> cases h <;> exact hmove _
    case opens reason => split at h <;> cases h <;> exact hmove _
    case invalidates restored =>
      split at h
      · cases h
        exact hmove _
      · cases restored <;> cases h <;> exact hmove _
    all_goals
      obtain rfl := Option.some.inj h
      first | exact hmove _ | (split <;> exact hmove _)

end Remembra.Idempotency
