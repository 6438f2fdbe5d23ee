import Remembra.Lib.OrdMap
import Remembra.Store.Codec

/-! The file store's operations over a tree of files. Each call reads the tree under the store's lock
    and decides on durable steps: the pre-image kept under `.history`, one atomic write (a temporary
    file renamed over the target) and one unlink, in this order (`Plan`). What a crash leaves is what
    the first steps of the plan do.

    Directories are not kept apart from the files in them, and the order in which a directory is read
    is the order of the tree's entries. Encryption at rest and the parse cache change no result and are
    left out. -/

namespace Remembra.Store

/-- The files below the storage root. -/
abbrev Files := OrdMap Path FileText

/-- One durable step. -/
inductive DiskStep where
  | create (file : Path) (text : FileText)
  | rename (old new : Path)
  | unlink (file : Path)

def DiskStep.apply (files : Files) : DiskStep → Files
  | .create file text => files.set file text
  | .rename old new =>
    match files.get old with
    | some text => (files.set new text).delete old
    | none => files
  | .unlink file => files.delete file

def applySteps (files : Files) (steps : List DiskStep) : Files := steps.foldl DiskStep.apply files

/-- The temporary file of an atomic write. -/
def tmpFile (file : Path) (tag : String) : Path :=
  file.dropLast ++ [file.getLast?.getD "" ++ "." ++ tag ++ ".tmp"]

/-- `writeFileAtomic`: the temporary file is created, filled and renamed over the target. -/
def writeAtomic (file : Path) (text : FileText) (tag : String) : List DiskStep :=
  [.create (tmpFile file tag) .other, .create (tmpFile file tag) text,
    .rename (tmpFile file tag) file]

/-- The durable steps of a call: the history's, a file written, a file removed. -/
structure Plan where
  history : List DiskStep := []
  write : Option (Path × FileText) := none
  remove : Option Path := none

def Plan.writeSteps (p : Plan) (tag : String) : List DiskStep :=
  match p.write with
  | some (file, text) => writeAtomic file text tag
  | none => []

def Plan.removeSteps (p : Plan) : List DiskStep :=
  match p.remove with
  | some file => [.unlink file]
  | none => []

def Plan.steps (p : Plan) (tag : String) : List DiskStep :=
  p.history ++ p.writeSteps tag ++ p.removeSteps

/-- What a call does and what it returns. -/
structure Call (α : Type) where
  plan : Plan := {}
  result : Except RemembraError α

/-- How a store is configured. -/
structure Config where
  host : Host
  root : Root
  /-- `REMEMBRA_HISTORY_LIMIT`, 20 when it is not set. -/
  historyLimit : ℤ := 20
  /-- `REMEMBRA_DEFAULT_ACCESS` -/
  access : Option String := none

/-! ### Looking files up -/

/-- The name ends in `.md`. -/
def isMd (name : String) : Bool :=
  match name.toList.reverse with
  | 'd' :: 'm' :: '.' :: _ => true
  | _ => false

/-- The file lies below the directory. -/
def below (dir file : Path) : Bool := dir.isPrefixOf file && decide (dir.length < file.length)

/-- The record files below the directories. -/
def walk (dirs : List Path) (files : Files) : List Path :=
  dirs.flatMap fun dir => files.keys.filter fun f => below dir f && isMd (f.getLast?.getD "")

section Calls
variable (C : Config)

/-- The record in a file, `none` when there is no file or `parse` skips it. -/
def readFile (files : Files) (file : Path) : Option Memory :=
  (files.get file).bind (parse C.host file)

/-- The directories of a tree. -/
def treeDirs (base : Path) : List Path :=
  [base ++ ["global"], base ++ ["scopes"], base ++ ["archived"]]

def findFile (files : Files) (id : String) (tenant : Option TenantFilter) : Option Path :=
  (walk (treeDirs (treeRoot C.root tenant)) files).find? fun f => stem f = id

/-- The filter, if there is one, lets the record through. -/
def matchesTenant (memory : Memory) (tenant : Option TenantFilter) : Bool :=
  tenant.all (memoryBelongsToTenant memory)

def get (files : Files) (id : String) (tenant : Option TenantFilter) : Option Memory :=
  ((findFile C files id tenant).bind (readFile C files)).filter (matchesTenant · tenant)

/-- The active records, and the archived ones if they are asked for. -/
def all (files : Files) (includeArchived : Bool) (tenant : Option TenantFilter) : List Memory :=
  let base := treeRoot C.root tenant
  let dirs := [base ++ ["global"], base ++ ["scopes"]] ++
    if includeArchived then [base ++ ["archived", "global"], base ++ ["archived", "scopes"]] else []
  ((walk dirs files).filterMap (readFile C files)).filter (matchesTenant · tenant)

/-! ### History -/

/-- Safe as a single path component. -/
def isSafeMemoryId (value : String) : Bool :=
  value ≠ "" && Jobs.utf16Length value ≤ 255 && value ≠ "." && value ≠ ".." &&
    value.toList.all (fun c => 32 ≤ c.toNat && c.toNat ≠ 127 &&
      c ∉ ['\\', '/', '<', '>', ':', '"', '|', '?', '*']) &&
    value.toList.getLast? ≠ some '.' && value.toList.getLast? ≠ some ' '

/-- The sequence number in `<epochMs>-<seq>.md`. -/
def historySeq (name : String) : Option ℕ :=
  let l := (stripMd name).toList.reverse
  match l.dropWhile Char.isDigit with
  | '-' :: _ => (String.ofList (l.takeWhile Char.isDigit).reverse).toNat?
  | _ => none

def padStart4 (n : ℕ) : String :=
  let s := toString n
  .ofList (List.replicate (4 - s.length) '0') ++ s

/-- Keep a copy of the file under `.history/<id>`, with the reason beside it, and prune what is over
    the limit. -/
def snapshotHistory (now : ℤ) (tags : ℕ → String) (files : Files) (file : Path)
    (reason : Option String) (tenant : Option TenantFilter) : Except RemembraError (List DiskStep) :=
  if C.historyLimit ≤ 0 then .ok []
  else if isSafeMemoryId (stem file) then
    let dir := treeRoot C.root tenant ++ [".history", stem file]
    let existing := (files.keys.filter fun f => f.dropLast = dir).filterMap fun f =>
      f.getLast?.filter isMd
    let seq := ((existing.filterMap historySeq).map (· + 1)).foldl max 0
    let name := toString now ++ "-" ++ padStart4 seq ++ ".md"
    let sorted := (existing ++ [name]).mergeSort fun a b => decide (a ≤ b)
    .ok (writeAtomic (dir ++ [name]) ((files.get file).getD .other) (tags 1) ++
      (match truthy reason with
        | some _ => writeAtomic (dir ++ ["reasons.json"]) .other (tags 2)
        | none => []) ++
      (sorted.take (sorted.length - C.historyLimit.toNat)).map fun n => .unlink (dir ++ [n]))
  else .error ⟨.invalidInput, "memory id is not safe for a history path"⟩

/-! ### The calls -/

/-- The file system has no file to unlink. -/
def noSuchFile : RemembraError := ⟨.ioError, "filesystem error (ENOENT)"⟩

def store (now : ℤ) (id : String) (input : StoreInput) (embedding : Option (List JsNum))
    (tenant : Option TenantFilter) : Call Memory :=
  let memory := storeRecord C.host C.access now id input embedding tenant
  match fileFor C.root memory with
  | .error e => { result := .error e }
  | .ok file => { plan := { write := some (file, render C.host memory) }, result := .ok memory }

def forget (files : Files) (id : String) (tenant : Option TenantFilter) : Call Bool :=
  match findFile C files id tenant with
  | none => { result := .ok false }
  | some file =>
    match readFile C files file with
    | none => { result := .ok false }
    | some current =>
      if matchesTenant current tenant then { plan := { remove := some file }, result := .ok true }
      else { result := .ok false }

/-- Write the moved record, then unlink the old file; an old file that is not there is an error. -/
def move (files : Files) (old new : Path) (updated : Memory) : Call (Option Memory) where
  plan := { write := some (new, render C.host updated), remove := some old }
  result := if (files.get old).isSome then .ok (some updated) else .error noSuchFile

def archive (now : ℤ) (files : Files) (id : String) (tenant : Option TenantFilter) :
    Call (Option Memory) :=
  match get C files id tenant with
  | none => { result := .ok none }
  | some m =>
    if (truthy m.archivedAt).isSome then { result := .ok none }
    else
      let stamp := C.host.toISOString now
      let updated := { m with archivedAt := some stamp, updatedAt := stamp }
      match fileFor C.root m, fileFor C.root updated with
      | .ok old, .ok new => if old = new then { result := .ok none } else move C files old new updated
      | .error e, _ | _, .error e => { result := .error e }

def revive (now : ℤ) (files : Files) (id : String) (tenant : Option TenantFilter) :
    Call (Option Memory) :=
  match get C files id tenant with
  | none => { result := .ok none }
  | some m =>
    if (truthy m.archivedAt).isSome then
      let stamp := C.host.toISOString now
      let updated := { m with archivedAt := none, lastSeen := some stamp, updatedAt := stamp }
      match fileFor C.root m, fileFor C.root updated with
      | .ok old, .ok new => move C files old new updated
      | .error e, _ | _, .error e => { result := .error e }
    else { result := .ok none }

/-- Nothing is written when the memory surfaced less than an hour ago. -/
def touch (now : ℤ) (files : Files) (id : String) (tenant : Option TenantFilter) : Call Unit :=
  match get C files id tenant with
  | none => { result := .ok () }
  | some m =>
    if (C.host.dateParse (m.lastSeen.getD m.updatedAt)).any fun last => now - last < 3600000 then
      { result := .ok () }
    else
      let seen := { m with lastSeen := some (C.host.toISOString now) }
      match fileFor C.root seen with
      | .error e => { result := .error e }
      | .ok file => { plan := { write := some (file, render C.host seen) }, result := .ok () }

def notFound (id : String) : RemembraError := ⟨.notFound, "No memory with id " ++ id⟩

def versionMismatch (id : String) (expected stored : ℤ) : RemembraError :=
  ⟨.conflict, "version mismatch for " ++ id ++ ": expected " ++ toString expected ++ ", stored " ++
    toString stored⟩

structure UpdateOptions where
  expectedVersion : Option ℤ := none
  reason : Option String := none

/-- The file that `update` takes for the memory's current one. -/
def existingFile (files : Files) (target : Path) (id : String) (tenant : Option TenantFilter) :
    Option Path :=
  if (files.get target).isSome then some target else findFile C files id tenant

def update (now : ℤ) (tags : ℕ → String) (files : Files) (memory : Memory)
    (options : UpdateOptions) (tenant : Option TenantFilter) : Call Memory :=
  if !matchesTenant memory tenant then { result := .error (notFound memory.id) } else
  match fileFor C.root memory with
  | .error e => { result := .error e }
  | .ok target =>
    match existingFile C files target memory.id tenant with
    | none => { result := .error (notFound memory.id) }
    | some existing =>
      match readFile C files existing with
      | none => { result := .error (notFound memory.id) }
      | some current =>
        if ((truthy memory.tenantId).isSome && tenant.isNone) || !matchesTenant current tenant then
          { result := .error (notFound memory.id) }
        else if options.expectedVersion.any (· ≠ current.version) then
          { result := .error
              (versionMismatch memory.id (options.expectedVersion.getD 0) current.version) }
        else
          let updated := { memory with
            version := current.version + 1
            updatedAt := C.host.toISOString now }
          let snapshot := if current.content = memory.content then .ok []
            else snapshotHistory C now tags files existing options.reason tenant
          match snapshot with
          | .error e => { result := .error e }
          | .ok history =>
            { plan := {
                history := history
                write := some (target, render C.host updated)
                remove := if existing = target then none else some existing }
              result := .ok updated }

end Calls

end Remembra.Store
