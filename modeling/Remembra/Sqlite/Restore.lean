import Remembra.Lib.Program
import Remembra.Lib.Transition

/-! Restoring a SQLite backup over a database, and what the next start makes of a restore that was cut
    off. The files are those of one call: the backup, the target, the staged copy under a temporary name
    of its own, and the path that the previous database is moved to. Each request to the file system is
    one question, answered or failed; a crash leaves the files as they are at some question. -/

namespace Remembra.Sqlite.Restore
open Transition

/-- The contents of a database file. `sound` is what `openVerified` looks for. -/
class Contents (δ : Type) where
  size : δ → ℕ
  sound : δ → Bool

inductive Phase where
  | prepared | previousMoved
  deriving DecidableEq

/-- `beside`: the paths of the journal share the directory of the target. -/
structure Journal where
  phase : Phase
  beside : Bool
  deriving DecidableEq

inductive Place where
  | source | target | temp | rollback
  deriving DecidableEq

structure Disk (δ : Type) where
  source : Option δ
  target : Option δ
  temp : Option δ := none
  rollback : Option δ := none
  journal : Option Journal := none
  /-- A `-wal`, `-shm` or `-journal` file of the target. -/
  sidecar : Bool := false
  deriving DecidableEq

structure Options where
  maxBytes : Option ℕ := none
  overwrite : Bool := false
  keepPrevious : Bool := false
  /-- `rollbackPath` is in the directory of the target. -/
  rollbackBeside : Bool := true

variable {δ : Type}

def Disk.get (d : Disk δ) : Place → Option δ
  | .source => d.source
  | .target => d.target
  | .temp => d.temp
  | .rollback => d.rollback

def Disk.put (d : Disk δ) (content : Option δ) : Place → Disk δ
  | .source => { d with source := content }
  | .target => { d with target := content }
  | .temp => { d with temp := content }
  | .rollback => { d with rollback := content }

def defaultMaxBytes : ℕ := 1024 * 1024 * 1024

/-- `verifySqliteBackup` does not throw. -/
def verifies [Contents δ] (maxBytes : Option ℕ) (content : δ) : Bool :=
  1024 ≤ maxBytes.getD defaultMaxBytes && Contents.size content ≤ maxBytes.getD defaultMaxBytes &&
    Contents.sound content

/-! ### The file system -/

inductive Act where
  | verify (place : Place) (maxBytes : Option ℕ)
  /-- `copyFile` has made the file, and has copied a part. -/
  | beginCopy
  | endCopy
  | chmod
  | sync
  | syncDirectory
  | writeJournal (journal : Journal)
  | removeJournal
  | rename (old new : Place)
  | unlink (place : Place)
  deriving DecidableEq

inductive Ask where
  | act (a : Act)
  /-- `regularFileExists`. -/
  | isThere (place : Place)
  | sidecar
  | readJournal
  deriving DecidableEq

/-- `none` and `false` throw, for the sidecars `true` does. -/
abbrev Ask.Answer : Ask → Type
  | .act _ => Bool
  | .isThere _ => Option Bool
  | .sidecar => Bool
  | .readJournal => Option (Option Journal)

inductive Fault where
  | ok | fails
  deriving DecidableEq

section Files
variable [Contents δ] (part : δ → δ)

/-- What an operation leaves on the disk, `none` if it throws. -/
def Disk.perform (d : Disk δ) : Act → Option (Disk δ)
  | .verify place maxBytes => if (d.get place).any (verifies maxBytes) then some d else none
  | .beginCopy => d.source.map fun content => { d with temp := some (part content) }
  | .endCopy => d.source.map fun content => { d with temp := some content }
  | .chmod | .sync | .syncDirectory => some d
  | .writeJournal journal => some { d with journal := some journal }
  | .removeJournal => some { d with journal := none }
  | .rename old new => (d.get old).map fun content => (d.put (some content) new).put none old
  | .unlink place => (d.get place).map fun _ => d.put none place

def Disk.handle : (q : Ask) → Fault → Disk δ → q.Answer × Disk δ
  | .act a, .ok, d => ((d.perform part a).isSome, (d.perform part a).getD d)
  | .act _, .fails, d => (false, d)
  | .isThere place, .ok, d => (some (d.get place).isSome, d)
  | .isThere _, .fails, d => (none, d)
  | .sidecar, .ok, d => (d.sidecar, d)
  | .sidecar, .fails, d => (true, d)
  | .readJournal, .ok, d =>
    (d.journal.elim (some none) fun journal => if journal.beside then some (some journal) else none, d)
  | .readJournal, .fails, d => (none, d)

end Files

/-! ### The procedures -/

/-- What is thrown carries `previousMoved`. -/
abbrev RProg := Prog Ask Ask.Answer Bool

def must (previousMoved : Bool) (a : Act) : RProg Unit :=
  Prog.request (.act a) >>= fun done => if done then pure () else .fail previousMoved

def isThere (previousMoved : Bool) (place : Place) : RProg Bool :=
  Prog.request (.isThere place) >>= fun answer : Option Bool =>
    match answer with
    | some present => pure present
    | none => .fail previousMoved

def attempts (a : Act) : RProg Unit := Prog.request (.act a) >>= fun _ => pure ()

def assertTarget (place : Place) (overwrite : Bool) : RProg Unit := do
  let present ← isThere false place
  if present && !overwrite then .fail false else pure ()

/-- The `try` block; `keeps` is that there is a `rollbackPath`. -/
def publish (o : Options) (keeps : Bool) : RProg Unit := do
  must false .beginCopy
  must false .endCopy
  must false .chmod
  must false (.verify .temp o.maxBytes)
  must false .sync
  if keeps then
    must false (.writeJournal ⟨.prepared, o.rollbackBeside⟩)
    must false (.rename .target .rollback)
    must true (.writeJournal ⟨.previousMoved, o.rollbackBeside⟩)
    must true (.rename .temp .target)
    must true .syncDirectory
    must true (.verify .target o.maxBytes)
    must true .removeJournal
  else
    must false (.rename .temp .target)
    must false .syncDirectory

/-- The end of the `catch` block. -/
def giveUp (keeps previousMoved : Bool) : RProg Unit := do
  if keeps then attempts .removeJournal
  .fail previousMoved

def bringBack (keeps previousMoved : Bool) : RProg Unit := do
  if previousMoved then
    let present ← isThere true .target
    if present then pure () else attempts (.rename .rollback .target)
  giveUp keeps previousMoved

/-- The `catch` block. -/
def cleanUp (keeps previousMoved : Bool) : RProg Unit := do
  attempts (.unlink .temp)
  bringBack keeps previousMoved

/-- What comes before the `try` block; the answer is whether there is a `rollbackPath`. -/
def checks (o : Options) : RProg Bool := do
  must false (.verify .source o.maxBytes)
  let targetExists ← isThere false .target
  assertTarget .target o.overwrite
  let sidecar ← Prog.request .sidecar
  if sidecar then .fail false
  else if o.keepPrevious && targetExists then do
    assertTarget .rollback o.overwrite
    pure true
  else pure false

def restoreSqliteBackup (o : Options) : RProg Unit := do
  let keeps ← checks o
  let result ← (publish o keeps).attempt
  match result with
  | .ok () => pure ()
  | .error previousMoved => cleanUp keeps previousMoved

inductive Action where
  | none | keptTarget | publishedStaged | restoredPrevious
  deriving DecidableEq

def keepTarget : RProg Action := do
  must false (.verify .target Option.none)
  attempts (.unlink .temp)
  must false .removeJournal
  pure .keptTarget

/-- Put the database that is left in place, and forget the journal. -/
def putBack (place : Place) (action : Action) : RProg Action := do
  must false (.verify place Option.none)
  must false (.rename place .target)
  must false .syncDirectory
  must false (.verify .target Option.none)
  must false .removeJournal
  pure action

/-- The reconciliation, once the journal is read; `rollbackExists` is of before its own renames. -/
def reconcileFrom (phase : Phase) (targetExists tempExists rollbackExists : Bool) : RProg Action :=
  if targetExists && (rollbackExists || phase ≠ .prepared) then keepTarget
  else do
    if targetExists then
      must false (.rename .target .rollback)
      must false .syncDirectory
    if tempExists then putBack .temp .publishedStaged
    else if rollbackExists then putBack .rollback .restoredPrevious
    else .fail false

def reconcileSqliteRestore : RProg Action := do
  let journal ← (Prog.request Ask.readJournal : RProg (Option (Option Journal)))
  match journal with
  | Option.none => .fail false
  | some Option.none => pure .none
  | some (some journal) =>
    let targetExists ← isThere false .target
    let tempExists ← isThere false .temp
    let rollbackExists ← isThere false .rollback
    reconcileFrom journal.phase targetExists tempExists rollbackExists

/-! ### Runs with failures and crashes -/

inductive Process where
  | restoring (p : RProg Unit)
  | restored
  | threw
  /-- Nothing runs, after a crash. -/
  | down
  | reconciling (p : RProg Action)
  | reconciled

structure Machine (δ : Type) where
  disk : Disk δ
  process : Process

/-- The restore goes on, or is over. -/
def Process.ofRestore : RProg Unit → Process
  | .done _ => .restored
  | .fail _ => .threw
  | p => .restoring p

def Process.ofReconcile : RProg Action → Process
  | .ask q next => .reconciling (.ask q next)
  | _ => .reconciled

inductive Event where
  /-- The file system answers. -/
  | answers (fault : Fault)
  | crashes
  | reconciles
  deriving DecidableEq

variable [Contents δ] (part : δ → δ)

/-- A failure inside the reconciliation ends it where it is, as a crash does. -/
def step (m : Machine δ) : Event → Option (Machine δ)
  | .answers fault =>
    match m.process with
    | .restoring (.ask q next) =>
      let (answer, disk) := Disk.handle part q fault m.disk
      some ⟨disk, .ofRestore (next answer)⟩
    | .reconciling (.ask q next) =>
      if fault = .ok then
        let (answer, disk) := Disk.handle part q .ok m.disk
        some ⟨disk, .ofReconcile (next answer)⟩
      else none
    | _ => none
  | .crashes =>
    match m.process with
    | .restoring _ | .reconciling _ => some { m with process := .down }
    | _ => none
  | .reconciles =>
    match m.process with
    | .down => some { m with process := .ofReconcile reconcileSqliteRestore }
    | _ => none

/-- A call of `restoreSqliteBackup` begins. -/
def Machine.start (o : Options) (disk : Disk δ) : Machine δ := ⟨disk, .ofRestore (restoreSqliteBackup o)⟩

end Remembra.Sqlite.Restore
