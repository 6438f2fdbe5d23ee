import Remembra.Lib.Program
import Remembra.Lib.Transition
import Remembra.Tenant.Directory

/-! The tenant directory in a file. Calls on one instance are queued and run one at a time. The first
    one loads the file, and what came of the load is kept; a mutator changes the directory in memory and
    publishes its snapshot through a temporary file that is synced and renamed, and when that fails it
    rebuilds the directory from the snapshot taken before. The file system answers a step or fails it. -/

namespace Remembra.Tenant
open Prog

/-! ### The file system -/

/-- What `JSON.parse` and the envelope's schema make of a text. -/
inductive FileContents where
  | notJson
  | notEnvelope
  /-- An envelope and its state, if that has the shape of a snapshot. -/
  | envelope (state : Option TenantDirectorySnapshot)
  deriving DecidableEq

structure FileText where
  contents : FileContents
  bytes : ℕ
  deriving DecidableEq

/-- What is under the path of the directory file. -/
inductive Target where
  | absent
  | symlink
  | other
  | file (text : FileText)
  deriving DecidableEq

structure Volume where
  target : Target
  /-- The temporary file of the call that runs. -/
  temp : Option FileText := none
  deriving DecidableEq

inductive FileKind where
  | file | symlink | other
  deriving DecidableEq

structure Stat where
  kind : FileKind
  size : ℕ

/-- The operations of `fs` that answer nothing. -/
inductive FileAct where
  | mkdir | open
  | writeFile (text : FileText)
  | sync | close | rename | unlink
  deriving DecidableEq

inductive FileQuestion where
  | lstat | readFile
  | act (a : FileAct)
  deriving DecidableEq

/-- An error carries its code. -/
def FileAnswer : FileQuestion → Type
  | .lstat => Except String Stat
  | .readFile => Except String FileText
  | .act _ => Except String Unit

/-- An error that is raised; that there is no file is not up to chance where the file is looked for. -/
def raised (fault : Option String) : Option String := fault.filter fun code => code ≠ "ENOENT"

def Target.stat : Target → Except String Stat
  | .absent => .error "ENOENT"
  | .symlink => .ok ⟨.symlink, 0⟩
  | .other => .ok ⟨.other, 0⟩
  | .file text => .ok ⟨.file, text.bytes⟩

def Target.read : Target → Except String FileText
  | .absent => .error "ENOENT"
  | .symlink => .error "ELOOP"
  | .other => .error "EISDIR"
  | .file text => .ok text

def Volume.act (v : Volume) : FileAct → Except String Unit × Volume
  | .mkdir | .sync | .close => (.ok (), v)
  | .open => (.ok (), { v with temp := some ⟨.notJson, 0⟩ })
  | .writeFile text => (.ok (), { v with temp := some text })
  | .unlink => (.ok (), { v with temp := none })
  | .rename =>
    match v.temp with
    | some text => (.ok (), { target := .file text, temp := none })
    | none => (.error "ENOENT", v)

/-- An operation that fails does nothing, but for a write: that may leave anything. -/
def Volume.fail (v : Volume) : FileAct → Volume
  | .writeFile _ => { v with temp := some ⟨.notJson, 0⟩ }
  | _ => v

def Volume.handle : (q : FileQuestion) → Option String → Volume → FileAnswer q × Volume
  | .lstat, fault, v => ((raised fault).elim v.target.stat .error, v)
  | .readFile, fault, v => ((raised fault).elim v.target.read .error, v)
  | .act a, none, v => v.act a
  | .act a, some code, v => (.error code, v.fail a)

/-! ### Reading and writing -/

inductive FileError where
  | remembra (error : RemembraError)
  | io (code : String)
  /-- The schema's own error. -/
  | schema
  deriving DecidableEq

def FileError.ofLoad : LoadError → FileError
  | .refused error => .remembra error
  | .schema => .schema

def invalid (message : String) : FileError :=
  .remembra ⟨.invalidInput, s!"tenant directory file: {message}"⟩

/-- An instance's limit, within what its constructor takes, and the length of the text that
    `JSON.stringify` makes of an envelope. -/
structure FileSettings where
  maxBytes : ℕ
  inRange : 1024 ≤ maxBytes ∧ maxBytes ≤ 64 * 1024 * 1024
  byteLength : TenantDirectorySnapshot → ℕ

variable (c : FileSettings)

def tooLarge : FileError := invalid s!"directory file exceeds {c.maxBytes} bytes"

def serialized (state : TenantDirectorySnapshot) : FileText := ⟨.envelope (some state), c.byteLength state⟩

abbrev FileProg (α : Type) := Prog FileQuestion FileAnswer FileError α

def parseFile (text : FileText) : Except FileError InMemoryTenantDirectory :=
  match text.contents with
  | .notJson => .error (invalid "directory file is not valid JSON")
  | .notEnvelope => .error (invalid "directory file has an invalid envelope")
  | .envelope none => .error (invalid "directory file contains invalid entity references")
  | .envelope (some state) =>
    match InMemoryTenantDirectory.fromSnapshot state with
    | .ok directory => .ok directory
    | .error (.refused error) => .error (.remembra error)
    | .error .schema => .error (invalid "directory file contains invalid entity references")

/-- The file is there as far as `lstat` knows. -/
def readContents : FileProg InMemoryTenantDirectory :=
  .ask .readFile fun
    | .error code => if code = "ENOENT" then .done {} else .fail (.io code)
    | .ok text => .ofExcept (parseFile text)

def readFromDisk : FileProg InMemoryTenantDirectory :=
  .ask .lstat fun
    | .error code => if code = "ENOENT" then .done {} else .fail (.io code)
    | .ok stat =>
      if stat.kind = .symlink then .fail (invalid "refusing to read a symlink directory file")
      else if stat.kind ≠ .file then .fail (invalid "directory path is not a regular file")
      else if c.maxBytes < stat.size then .fail (tooLarge c)
      else readContents

/-- The next operation, unless this one fails. -/
def perform (a : FileAct) (next : FileProg Unit) (otherwise : FileError → FileProg Unit) :
    FileProg Unit :=
  .ask (.act a) fun
    | .ok () => next
    | .error code => otherwise (.io code)

/-- What `catch` does before it throws the error again. That it fails too is ignored. -/
def unlinkTemp (error : FileError) : FileProg Unit := perform .unlink (.fail error) fun _ => .fail error

def closeHandle (error : FileError) : FileProg Unit :=
  perform .close (unlinkTemp error) fun _ => unlinkTemp error

def publishTemp : FileProg Unit := perform .rename (.done ()) unlinkTemp

/-- Write the text to a temporary file, sync it and put it in the place of the old file. -/
def publish (text : FileText) : FileProg Unit :=
  perform .open
    (perform (.writeFile text) (perform .sync (perform .close publishTemp closeHandle) closeHandle)
      closeHandle)
    unlinkTemp

def publishWithin (state : TenantDirectorySnapshot) : FileProg Unit :=
  if c.maxBytes < c.byteLength state then .fail (tooLarge c) else publish (serialized c state)

def persist (state : TenantDirectorySnapshot) : FileProg Unit :=
  perform .mkdir
    (.ask .lstat fun
      | .error code => if code = "ENOENT" then publishWithin c state else .fail (.io code)
      | .ok stat =>
        if stat.kind = .symlink then .fail (invalid "refusing to overwrite a symlink directory file")
        else if stat.kind ≠ .file then .fail (invalid "directory path is not a regular file")
        else publishWithin c state)
    .fail

/-! ### The instance -/

/-- `state` and `loadPromise`: a load that has been tried is not tried again. -/
inductive FileMemory where
  | fresh
  | failed (error : FileError)
  | loaded (directory : InMemoryTenantDirectory)

inductive DirectoryCall where
  | load
  | getMembershipVersion (organizationId : String)
  | verifyContext (context : TenantContext)
  | snapshot
  | mutate (m : Mutation)

inductive DirectoryReply where
  | done
  | version (version : Option String)
  | verdict (accepted : Bool)
  | state (snapshot : TenantDirectorySnapshot)
  deriving DecidableEq

/-- What a call answers that changes nothing. -/
def InMemoryTenantDirectory.reply (d : InMemoryTenantDirectory) : DirectoryCall → DirectoryReply
  | .getMembershipVersion o => .version (d.getMembershipVersion o)
  | .verifyContext context => .verdict (d.verifyContext context)
  | .snapshot => .state d.snapshot
  | .load | .mutate _ => .done

/-- Where the running call waits: in the load, or in the `try` of a mutator. -/
inductive Phase where
  | loading (rest : FileProg InMemoryTenantDirectory)
  | persisting (before : TenantDirectorySnapshot) (rest : FileProg Unit)

/-- The file, and the directory that the instance stands for: in memory, or as it would load. -/
structure View where
  target : Target
  state : Except FileError InMemoryTenantDirectory

structure RunningCall where
  call : DirectoryCall
  phase : Phase
  /-- The operation it waited for is done, and the call has not gone on yet. -/
  answered : Bool := false
  /-- What was there when the call began. -/
  opened : View
  /-- An operation of this call has raised an error. -/
  faulted : Bool := false

structure SettledCall where
  call : DirectoryCall
  result : Except FileError DirectoryReply
  before : View
  after : View
  faulted : Bool

structure Server where
  volume : Volume
  memory : FileMemory := .fresh
  queue : List DirectoryCall := []
  running : Option RunningCall := none
  /-- The calls that have been answered, the first one first. -/
  log : List SettledCall := []

/-- What a fresh instance loads when nothing is raised. -/
def reload (target : Target) : Except FileError InMemoryTenantDirectory :=
  ((readFromDisk c).exec (fun q => Volume.handle q none) ⟨target, none⟩).1

namespace Server
variable (s : Server)

def view : View where
  target := s.volume.target
  state := match s.memory with
    | .fresh => reload c s.volume.target
    | .failed error => .error error
    | .loaded directory => .ok directory

def settle (r : RunningCall) (result : Except FileError DirectoryReply) : Server :=
  { s with running := none, log := s.log ++ [⟨r.call, result, r.opened, s.view c, r.faulted⟩] }

/-- `catch` of a mutator: the directory is rebuilt from the snapshot taken before, and where that fails
    the call fails with this error instead. -/
def rollback (r : RunningCall) (before : TenantDirectorySnapshot) (error : FileError) : Server :=
  match InMemoryTenantDirectory.fromSnapshot before with
  | .ok directory => { s with memory := .loaded directory }.settle c r (.error error)
  | .error e => s.settle c r (.error (.ofLoad e))

/-- The call goes on once the directory is loaded. -/
def serve (r : RunningCall) (d : InMemoryTenantDirectory) : Server :=
  match r.call with
  | .mutate m =>
    match d.apply m with
    | (.error e, d') => { s with memory := .loaded d' }.rollback c r d.snapshot (.remembra e)
    | (.ok (), d') => { s with
        memory := .loaded d'
        running := some { r with phase := .persisting d.snapshot (persist c d'.snapshot) } }
  | call => s.settle c r (.ok (d.reply call))

/-- The next call of the queue begins. -/
def start : Option Server :=
  match s.running, s.queue with
  | none, call :: queue =>
    let r : RunningCall := { call, phase := .loading (readFromDisk c), opened := s.view c }
    let s := { s with queue }
    match s.memory with
    | .fresh => some { s with running := some r }
    | .failed e => some (s.settle c r (.error e))
    | .loaded d => some (s.serve c r d)
  | _, _ => none

/-- The file system answers the operation that the running call waits for, or fails it. -/
def operate (fault : Option String) : Option Server :=
  match s.running with
  | some { call, phase := .loading (.ask q next), answered := false, opened, faulted } =>
    let (answer, volume) := s.volume.handle q fault
    some { s with
      volume
      running := some ⟨call, .loading (next answer), true, opened, faulted || fault.isSome⟩ }
  | some { call, phase := .persisting before (.ask q next), answered := false, opened, faulted } =>
    let (answer, volume) := s.volume.handle q fault
    some { s with
      volume
      running := some ⟨call, .persisting before (next answer), true, opened, faulted || fault.isSome⟩ }
  | _ => none

/-- The running call goes on to its next operation, or to its end. -/
def resume : Option Server :=
  match s.running with
  | none => none
  | some r =>
    let r' := { r with answered := false }
    match r.phase with
    | .loading (.ask _ _) | .persisting _ (.ask _ _) =>
      if r.answered then some { s with running := some r' } else none
    | .loading (.done d) => some ({ s with memory := .loaded d }.serve c r' d)
    | .loading (.fail e) => some ({ s with memory := .failed e }.settle c r' (.error e))
    | .persisting _ (.done ()) => some (s.settle c r' (.ok .done))
    | .persisting before (.fail e) => some (s.rollback c r' before e)

end Server

/-- What happens around the instance: a call arrives, the next one begins, the file system acts, the
    running call goes on. -/
inductive FileEvent where
  | arrive (call : DirectoryCall)
  | start
  | operate (fault : Option String)
  | resume

def fileStep (s : Server) : FileEvent → Option Server
  | .arrive call => some { s with queue := s.queue ++ [call] }
  | .start => s.start c
  | .operate fault => s.operate fault
  | .resume => s.resume c

end Remembra.Tenant
