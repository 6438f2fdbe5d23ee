import Remembra.Lib.Transition
import Remembra.Store.Recovery

/-! Importing a batch. `importBatch` plans which memories it adds and where, publishes a journal of the
    planned paths, writes the files one by one and removes the journal. A failure in between unlinks
    every planned path, and so does the recovery pass when it finds the journal of an import that
    crashed.

    Other writers act at any point. What is unlinked is what was planned, not what was written, so a
    file that somebody else has put at a planned path goes with it (`conflict_removes_foreign_file`);
    where the planned paths are left to the import, it is all or nothing (`all_or_nothing`). -/

namespace Remembra.Store.Import
open Transition

/-- Where the import of the next planned memory stands. -/
inductive Stage where
  | recheck | create | fill | rename | hook
  deriving DecidableEq

inductive Pc where
  | planning (rest : List Memory)
  | publishing (todo : List (Memory × Path)) (stage : Stage)
  | cleaning (file : Path) (error : RemembraError)
  | rolling (rest : List Path) (error : RemembraError)
  | failed (error : RemembraError)
  | succeeded (imported skipped : ℕ)
  | crashed
  | recovered

/-- `expected` is what the files would be without the import, and with all of it once it succeeds. -/
structure State where
  disk : Disk
  expected : Files
  planned : List (Memory × Path) := []
  skipped : ℕ := 0
  pc : Pc

def State.paths (s : State) : List Path := s.planned.map Prod.snd

def start (files : Files) (memories : List Memory) : State where
  disk := ⟨files, none⟩
  expected := files
  pc := .planning memories

/-- The importing process takes its next step or sees it fail, it dies, a recovery pass runs, or
    another writer acts. -/
inductive Act where
  | advance
  | fail (error : RemembraError)
  /-- The journal is in place, but its mode could not be set. -/
  | failLate (error : RemembraError)
  | die
  | recover
  | other (step : DiskStep)

/-- The paths that a step names. -/
def named : DiskStep → List Path
  | .create file _ | .unlink file => [file]
  | .rename old new => [old, new]

def appeared (id : String) : RemembraError :=
  ⟨.conflict, "memory id appeared during import: " ++ id⟩

section Machine
variable (C : Config) (tenant : Option TenantFilter) (tag : String)

def State.skip (s : State) (rest : List Memory) : State :=
  { s with skipped := s.skipped + 1, pc := .planning rest }

def State.add (s : State) (memory : Memory) (file : Path) (rest : List Memory) : State :=
  { s with planned := s.planned ++ [(memory, file)], pc := .planning rest }

/-- The planning of one memory. -/
def State.plan (s : State) (memory : Memory) (rest : List Memory) : State :=
  if (tenant.isNone && (truthy memory.tenantId).isSome) || !matchesTenant memory tenant then
    s.skip rest
  else if memory.id ∈ s.planned.map (·.1.id) ∨
      (findFile C s.disk.files memory.id tenant).isSome then
    s.skip rest
  else match fileFor C.root memory with
    | .error e => { s with pc := .failed e }
    | .ok file =>
      if file ∈ s.paths then s.skip rest else s.add memory file rest

def State.apply (s : State) (step : DiskStep) (pc : Pc) : State :=
  { s with disk := { s.disk with files := step.apply s.disk.files }, pc := pc }

/-- Every planned path is unlinked, the last one first. -/
def State.rollBack (s : State) (error : RemembraError) : State :=
  { s with pc := .rolling s.paths.reverse error }

def addPlanned (files : Files) (planned : List (Memory × Path)) : Files :=
  planned.foldl (fun files p => files.set p.2 (render C.host p.1)) files

def State.advance (s : State) : Option State :=
  match s.pc with
  | .planning (memory :: rest) => some (s.plan C tenant memory rest)
  | .planning [] =>
    if s.planned = [] then some { s with pc := .succeeded 0 s.skipped }
    else some { s with
      disk := { s.disk with journal := some s.paths }, pc := .publishing s.planned .recheck }
  | .publishing [] _ => some { s with
      disk := { s.disk with journal := none }
      expected := addPlanned C s.expected s.planned
      pc := .succeeded s.planned.length s.skipped }
  | .publishing ((memory, file) :: todo) stage =>
    match stage with
    | .recheck =>
      if (findFile C s.disk.files memory.id tenant).isSome then some (s.rollBack (appeared memory.id))
      else some { s with pc := .publishing ((memory, file) :: todo) .create }
    | .create =>
      some (s.apply (.create (tmpFile file tag) .other) (.publishing ((memory, file) :: todo) .fill))
    | .fill =>
      some (s.apply (.create (tmpFile file tag) (render C.host memory))
        (.publishing ((memory, file) :: todo) .rename))
    | .rename =>
      some (s.apply (.rename (tmpFile file tag) file) (.publishing ((memory, file) :: todo) .hook))
    | .hook => some { s with pc := .publishing todo .recheck }
  | .cleaning file error => some ((s.apply (.unlink (tmpFile file tag)) s.pc).rollBack error)
  | .rolling (file :: rest) error => some (s.apply (.unlink file) (.rolling rest error))
  | .rolling [] error =>
    some { s with disk := { s.disk with journal := none }, pc := .failed error }
  | _ => none

/-- The next step of the importing process raises; what a clean-up raises is swallowed. -/
def State.fail (s : State) (error : RemembraError) : Option State :=
  match s.pc with
  | .planning [] => if s.planned = [] then none else some { s with pc := .failed error }
  | .publishing [] _ => some (s.rollBack error)
  | .publishing ((_, file) :: _) stage =>
    match stage with
    | .recheck => none
    | .hook => some (s.rollBack error)
    | _ => some { s with pc := .cleaning file error }
  | .cleaning _ error => some (s.rollBack error)
  | .rolling (_ :: rest) error => some { s with pc := .rolling rest error }
  | .rolling [] error => some { s with pc := .failed error }
  | _ => none

def State.step (s : State) : Act → Option State
  | .advance => s.advance C tenant tag
  | .fail error => s.fail error
  | .failLate error =>
    match s.pc with
    | .planning [] =>
      if s.planned = [] then none
      else some { s with disk := { s.disk with journal := some s.paths }, pc := .failed error }
    | _ => none
  | .die =>
    match s.pc with
    | .planning _ | .publishing _ _ | .cleaning _ _ | .rolling _ _ => some { s with pc := .crashed }
    | _ => none
  | .recover =>
    match s.pc with
    | .crashed => some { s with disk := reconcileSnapshotImport s.disk, pc := .recovered }
    | .failed error => some { s with disk := reconcileSnapshotImport s.disk, pc := .failed error }
    | _ => none
  | .other step =>
    -- the names of temporary files are random: nobody else has them
    if ∀ g ∈ named step, ∀ p ∈ s.planned, g ≠ tmpFile p.2 tag then
      some { s with
        disk := { s.disk with files := step.apply s.disk.files }, expected := step.apply s.expected }
    else none

/-- A temporary file of the import. -/
def State.Own (s : State) (g : Path) : Prop := ∃ p ∈ s.planned, g = tmpFile p.2 tag

/-- Every file is as expected, but for temporary files of the import. -/
def State.AsExpected (s : State) : Prop :=
  ∀ g, ¬ s.Own tag g → s.disk.files.get g = s.expected.get g

/-- What the import leaves: before it publishes and after it failed or was recovered the files are as
    they would be without it, after it succeeded its memories are added; and at no time is a file
    touched that it did not plan. -/
structure AllOrNothing (memories : List Memory) (s : State) : Prop where
  others : ∀ g, ¬ s.Own tag g → g ∉ s.paths → s.disk.files.get g = s.expected.get g
  planning : ∀ rest, s.pc = .planning rest → s.AsExpected tag
  failed : ∀ error, s.pc = .failed error → s.AsExpected tag
  recovered : s.pc = .recovered → s.AsExpected tag
  succeeded : ∀ imported skipped, s.pc = .succeeded imported skipped → s.AsExpected tag ∧
    imported = s.planned.length ∧ imported + skipped = memories.length

/-- The planned paths are the import's while its journal is there: none of them is taken when the
    journal is published, nobody else touches one, and the clean-up finds that it can unlink what is
    there. -/
def undisturbed (s : State) : Act → Bool
  | .advance | .failLate _ =>
    match s.pc with
    | .planning [] => s.planned.all fun p => (s.disk.files.get p.2).isNone
    | _ => true
  | .fail _ =>
    match s.pc with
    | .rolling (file :: _) _ => (s.disk.files.get file).isNone
    | _ => true
  | .other step => s.disk.journal.all fun paths => (named step).all fun g => g ∉ paths
  | .die | .recover => true

end Machine

/-! ### The invariant -/

/-- What holds where the importing process stands, besides what always does. -/
def Standing (C : Config) (tag : String) (memories : List Memory) (s : State) : Pc → Prop
  | .planning rest => s.disk.journal = none ∧
      (∀ g ∈ s.paths, s.disk.files.get g = s.expected.get g) ∧
      s.planned.length + s.skipped + rest.length = memories.length
  | .publishing todo stage => s.disk.journal = some s.paths ∧
      s.planned.length + s.skipped = memories.length ∧
      ∃ done, s.planned = done ++ todo ∧
        (∀ p ∈ done, s.disk.files.get p.2 = some (render C.host p.1)) ∧
        ∀ p rest, todo = p :: rest →
          (stage = .rename → s.disk.files.get (tmpFile p.2 tag) = some (render C.host p.1)) ∧
          (stage = .hook → s.disk.files.get p.2 = some (render C.host p.1))
  | .cleaning file _ => s.disk.journal = some s.paths ∧ file ∈ s.paths
  | .rolling rest _ => s.disk.journal = some s.paths ∧ (∀ g ∈ rest, g ∈ s.paths) ∧
      ∀ g ∈ s.paths, g ∉ rest → s.disk.files.get g = none
  | .failed _ | .recovered => ∀ g ∈ s.paths, s.disk.files.get g = s.expected.get g
  | .succeeded imported skipped => s.disk.journal = none ∧
      (∀ g ∈ s.paths, s.disk.files.get g = s.expected.get g) ∧
      imported = s.planned.length ∧ imported + skipped = memories.length
  | .crashed => s.disk.journal = none → ∀ g ∈ s.paths, s.disk.files.get g = s.expected.get g

structure Inv (C : Config) (tag : String) (memories : List Memory) (s : State) : Prop where
  md : ∀ g ∈ s.paths, isMd (g.getLast?.getD "") = true
  nodup : s.paths.Nodup
  others : ∀ g, ¬ s.Own tag g → g ∉ s.paths → s.disk.files.get g = s.expected.get g
  journal : s.disk.journal = none ∨ s.disk.journal = some s.paths
  free : s.disk.journal = some s.paths → ∀ g ∈ s.paths, s.expected.get g = none
  standing : Standing C tag memories s s.pc

section Inv
variable {C : Config} {tenant : Option TenantFilter} {tag : String} {memories : List Memory}
  {s t : State}

/-- A temporary file is not a record's. -/
theorem isMd_own {g : Path} (h : s.Own tag g) : isMd (g.getLast?.getD "") = false := by
  obtain ⟨p, -, rfl⟩ := h
  rw [tmpFile, List.getLast?_concat, Option.getD_some, isMd_tmp]

theorem Inv.not_own (hs : Inv C tag memories s) {g : Path} (hg : g ∈ s.paths) :
    ¬ s.Own tag g := by
  intro hown
  have hmd := hs.md g hg
  rw [isMd_own hown] at hmd
  cases hmd

/-- Files that agree on the paths a step names, and on others, agree on them after the step. -/
theorem get_apply_congr {files files' : Files} {step : DiskStep} {g : Path}
    (hnamed : ∀ f ∈ named step, files.get f = files'.get f) (hg : files.get g = files'.get g) :
    (step.apply files).get g = (step.apply files').get g := by
  cases step with
  | create file text =>
    simp only [DiskStep.apply, OrdMap.get_set, hg]
  | unlink file =>
    simp only [DiskStep.apply, OrdMap.get_delete, hg]
  | rename old new =>
    have hold : files.get old = files'.get old := hnamed old (List.mem_cons_self ..)
    simp only [DiskStep.apply, hold]
    split
    · simp only [OrdMap.get_delete, OrdMap.get_set, hg]
    · exact hg

/-- A step leaves the paths that it does not name. -/
theorem get_apply_of_notMem {files : Files} {step : DiskStep} {g : Path} (hg : g ∉ named step) :
    (step.apply files).get g = files.get g := by
  cases step with
  | create file text =>
    have hne : g ≠ file := by simpa [named] using hg
    exact OrdMap.get_set_ne _ hne _
  | unlink file =>
    have hne : g ≠ file := by simpa [named] using hg
    exact get_delete_ne hne
  | rename old new =>
    have hne : g ≠ old ∧ g ≠ new := by simpa [named] using hg
    obtain ⟨hold, hnew⟩ := hne
    simp only [DiskStep.apply]
    split
    · rw [get_delete_ne hold, OrdMap.get_set_ne _ hnew]
    · rfl

/-- The law, from the invariant. -/
theorem Inv.allOrNothing (hs : Inv C tag memories s) : AllOrNothing tag memories s := by
  have hall : (∀ g ∈ s.paths, s.disk.files.get g = s.expected.get g) → s.AsExpected tag := by
    intro hpaths g hg
    by_cases hmem : g ∈ s.paths
    · exact hpaths g hmem
    · exact hs.others g hg hmem
  have hstanding := hs.standing
  constructor
  case others => exact hs.others
  case planning =>
    intro rest hpc
    rw [hpc] at hstanding
    exact hall hstanding.2.1
  case failed =>
    intro error hpc
    rw [hpc] at hstanding
    exact hall hstanding
  case recovered =>
    intro hpc
    rw [hpc] at hstanding
    exact hall hstanding
  case succeeded =>
    intro imported skipped hpc
    rw [hpc] at hstanding
    exact ⟨hall hstanding.2.1, hstanding.2.2⟩

/-- Without a journal the planned paths are as expected. -/
theorem Inv.paths_of_none (hs : Inv C tag memories s) (hnone : s.disk.journal = none) :
    ∀ g ∈ s.paths, s.disk.files.get g = s.expected.get g := by
  have hstanding := hs.standing
  cases hpc : s.pc with
  | planning rest => rw [hpc] at hstanding; exact hstanding.2.1
  | publishing todo stage =>
    rw [hpc] at hstanding
    exact absurd (hnone.symm.trans hstanding.1) (by simp)
  | cleaning file error =>
    rw [hpc] at hstanding
    exact absurd (hnone.symm.trans hstanding.1) (by simp)
  | rolling rest error =>
    rw [hpc] at hstanding
    exact absurd (hnone.symm.trans hstanding.1) (by simp)
  | failed error => rw [hpc] at hstanding; exact hstanding
  | succeeded imported skipped => rw [hpc] at hstanding; exact hstanding.2.1
  | crashed => rw [hpc] at hstanding; exact hstanding hnone
  | recovered => rw [hpc] at hstanding; exact hstanding

/-! ### Other writers -/

/-- What somebody else does to a path that is not the import's happens to both. -/
theorem inv_other {step : DiskStep} (hs : Inv C tag memories s)
    (hnamed : ∀ g ∈ named step, ∀ p ∈ s.planned, g ≠ tmpFile p.2 tag)
    (hok : ∀ paths ∈ s.disk.journal, ∀ g ∈ named step, g ∉ paths) :
    Inv C tag memories { s with
      disk := { s.disk with files := step.apply s.disk.files }
      expected := step.apply s.expected } := by
  have hstep : ∀ g ∈ named step, s.disk.files.get g = s.expected.get g := by
    intro g hg
    by_cases hmem : g ∈ s.paths
    · rcases hs.journal with hnone | hsome
      · exact hs.paths_of_none hnone g hmem
      · exact absurd hmem (hok _ hsome g hg)
    · refine hs.others g ?_ hmem
      rintro ⟨p, hp, heq⟩
      exact hnamed g hg p hp heq
  have hsame : ∀ g, s.disk.files.get g = s.expected.get g →
      (step.apply s.disk.files).get g = (step.apply s.expected).get g :=
    fun g hg => get_apply_congr hstep hg
  -- with a journal the step leaves the planned paths and the temporary files alone
  have hpath : s.disk.journal = some s.paths → ∀ files : Files, ∀ g ∈ s.paths,
      (step.apply files).get g = files.get g :=
    fun hsome files g hg => get_apply_of_notMem fun hmem => hok _ hsome g hmem hg
  have htmp : ∀ p ∈ s.planned, (step.apply s.disk.files).get (tmpFile p.2 tag) =
      s.disk.files.get (tmpFile p.2 tag) :=
    fun p hp => get_apply_of_notMem fun hmem => hnamed _ hmem p hp rfl
  have hin : ∀ p ∈ s.planned, p.2 ∈ s.paths := fun p hp => List.mem_map_of_mem hp
  constructor
  case md => exact hs.md
  case nodup => exact hs.nodup
  case others => exact fun g hown hg => hsame g (hs.others g hown hg)
  case journal => exact hs.journal
  case free =>
    intro hsome g hg
    exact (hpath hsome s.expected g hg).trans (hs.free hsome g hg)
  case standing =>
    have hstanding := hs.standing
    cases hpc : s.pc with
    | planning rest =>
      rw [hpc] at hstanding
      exact ⟨hstanding.1, fun g hg => hsame g (hstanding.2.1 g hg), hstanding.2.2⟩
    | publishing todo stage =>
      rw [hpc] at hstanding
      obtain ⟨hsome, hcount, done, hplanned, hdone, hhead⟩ := hstanding
      refine ⟨hsome, hcount, done, hplanned, ?_, ?_⟩
      · intro p hp
        have hmem : p ∈ s.planned := by
          rw [hplanned]
          exact List.mem_append_left _ hp
        exact (hpath hsome _ p.2 (hin p hmem)).trans (hdone p hp)
      · intro p rest htodo
        have hmem : p ∈ s.planned := by
          rw [hplanned, htodo]
          exact List.mem_append_right _ (List.mem_cons_self ..)
        obtain ⟨hrename, hhook⟩ := hhead p rest htodo
        exact ⟨fun h => (htmp p hmem).trans (hrename h),
          fun h => (hpath hsome _ p.2 (hin p hmem)).trans (hhook h)⟩
    | cleaning file error => rw [hpc] at hstanding; exact hstanding
    | rolling rest error =>
      rw [hpc] at hstanding
      refine ⟨hstanding.1, hstanding.2.1, fun g hg hrest => ?_⟩
      exact (hpath hstanding.1 _ g hg).trans (hstanding.2.2 g hg hrest)
    | failed error =>
      rw [hpc] at hstanding
      exact fun g hg => hsame g (hstanding g hg)
    | succeeded imported skipped =>
      rw [hpc] at hstanding
      exact ⟨hstanding.1, fun g hg => hsame g (hstanding.2.1 g hg), hstanding.2.2⟩
    | crashed =>
      rw [hpc] at hstanding
      exact fun hnone g hg => hsame g (hstanding hnone g hg)
    | recovered =>
      rw [hpc] at hstanding
      exact fun g hg => hsame g (hstanding g hg)

/-! ### The steps of the import -/

/-- A step on files of the import, its own or planned ones. -/
theorem inv_apply {step : DiskStep} {pc : Pc} (hs : Inv C tag memories s)
    (hnamed : ∀ g ∈ named step, s.Own tag g ∨ g ∈ s.paths)
    (hstanding : Standing C tag memories (s.apply step pc) pc) :
    Inv C tag memories (s.apply step pc) := by
  refine ⟨hs.md, hs.nodup, ?_, hs.journal, hs.free, hstanding⟩
  intro g hown hg
  have hnot : g ∉ named step := by
    intro hmem
    rcases hnamed g hmem with h | h
    · exact hown h
    · exact hg h
  exact (get_apply_of_notMem hnot).trans (hs.others g hown hg)

theorem inv_rollBack {error : RemembraError} (hs : Inv C tag memories s)
    (hsome : s.disk.journal = some s.paths) : Inv C tag memories (s.rollBack error) := by
  refine ⟨hs.md, hs.nodup, hs.others, hs.journal, hs.free, hsome, ?_, ?_⟩
  · exact fun g hg => List.mem_reverse.mp hg
  · exact fun g hg hrest => absurd (List.mem_reverse.mpr hg) hrest

/-- Planning reads the tree and writes nothing. -/
theorem inv_plan {memory : Memory} {rest : List Memory} (hs : Inv C tag memories s)
    (hpc : s.pc = .planning (memory :: rest)) :
    Inv C tag memories (s.plan C tenant memory rest) := by
  have hstanding := hs.standing
  rw [hpc] at hstanding
  obtain ⟨hnone, hpaths, hcount⟩ := hstanding
  rw [List.length_cons] at hcount
  have hskip : Inv C tag memories (s.skip rest) := by
    refine ⟨hs.md, hs.nodup, hs.others, hs.journal, hs.free, hnone, hpaths, ?_⟩
    simp only [State.skip]
    omega
  unfold State.plan
  split
  · exact hskip
  · split
    · exact hskip
    · split
      · exact ⟨hs.md, hs.nodup, hs.others, hs.journal, hs.free, hpaths⟩
      · rename_i file hfile
        split
        · exact hskip
        · rename_i hnew
          have hpathsEq : (s.add memory file rest).paths = s.paths ++ [file] := by
            simp [State.paths, State.add]
          have hownOf : ∀ {g}, s.Own tag g → (s.add memory file rest).Own tag g := by
            rintro g ⟨p, hp, rfl⟩
            exact ⟨p, List.mem_append_left _ hp, rfl⟩
          have hmd : isMd (file.getLast?.getD "") = true := isMd_fileFor hfile
          have hfileSame : s.disk.files.get file = s.expected.get file := by
            refine hs.others file (fun hown => ?_) hnew
            rw [isMd_own hown] at hmd
            cases hmd
          constructor
          case md =>
            intro g hg
            rw [hpathsEq, List.mem_append, List.mem_singleton] at hg
            rcases hg with hg | rfl
            · exact hs.md g hg
            · exact hmd
          case nodup =>
            rw [hpathsEq]
            refine List.nodup_append.mpr ⟨hs.nodup, List.nodup_singleton file, ?_⟩
            rintro g hg g' hg' rfl
            rw [List.mem_singleton] at hg'
            exact hnew (hg' ▸ hg)
          case others =>
            intro g hown hg
            rw [hpathsEq, List.mem_append, not_or] at hg
            exact hs.others g (fun h => hown (hownOf h)) hg.1
          case journal => exact .inl hnone
          case free =>
            intro hsome
            exact absurd (hnone.symm.trans hsome) (by simp)
          case standing =>
            refine ⟨hnone, ?_, ?_⟩
            · intro g hg
              rw [hpathsEq, List.mem_append, List.mem_singleton] at hg
              rcases hg with hg | rfl
              · exact hpaths g hg
              · exact hfileSame
            · simp only [State.add, List.length_append, List.length_singleton]
              omega

theorem get_addPlanned {planned : List (Memory × Path)} {files : Files}
    (hnodup : (planned.map Prod.snd).Nodup) :
    (∀ p ∈ planned, (addPlanned C files planned).get p.2 = some (render C.host p.1)) ∧
      ∀ g, g ∉ planned.map Prod.snd → (addPlanned C files planned).get g = files.get g := by
  induction planned generalizing files with
  | nil => exact ⟨fun p hp => absurd hp List.not_mem_nil, fun g _ => rfl⟩
  | cons q planned ih =>
    rw [List.map_cons, List.nodup_cons] at hnodup
    obtain ⟨hnew, hother⟩ := @ih (files.set q.2 (render C.host q.1)) hnodup.2
    constructor
    · intro p hp
      rcases List.mem_cons.mp hp with rfl | hp
      · exact (hother p.2 hnodup.1).trans (OrdMap.get_set_self ..)
      · exact hnew p hp
    · intro g hg
      rw [List.map_cons, List.mem_cons, not_or] at hg
      exact (hother g hg.2).trans (OrdMap.get_set_ne _ hg.1 _)

theorem get_foldl_delete {paths : List Path} {files : Files} {g : Path} :
    (paths.foldl OrdMap.delete files).get g = if g ∈ paths then none else files.get g := by
  induction paths generalizing files with
  | nil => simp
  | cons f paths ih =>
    rw [List.foldl_cons, ih, OrdMap.get_delete]
    by_cases hgf : g = f
    · simp [hgf]
    · simp [hgf]

/-- Before the rename nothing is said of the temporary file or of the path. -/
theorem head_of_ne {stage : Stage} {P Q : Prop} (hrename : stage ≠ .rename)
    (hhook : stage ≠ .hook) : (stage = .rename → P) ∧ (stage = .hook → Q) :=
  ⟨fun h => absurd h hrename, fun h => absurd h hhook⟩

/-- A step of the publication of one memory. -/
theorem inv_publish {memory : Memory} {file : Path} {todo : List (Memory × Path)} {stage : Stage}
    (hs : Inv C tag memories s) (hpc : s.pc = .publishing ((memory, file) :: todo) stage)
    (ht : s.advance C tenant tag = some t) : Inv C tag memories t := by
  have hstanding := hs.standing
  rw [hpc] at hstanding
  obtain ⟨hsome, hcount, done, hplanned, hdone, hhead⟩ := hstanding
  obtain ⟨hrename, hhook⟩ := hhead (memory, file) todo rfl
  have hmem : (memory, file) ∈ s.planned := by
    rw [hplanned]
    exact List.mem_append_right _ (List.mem_cons_self ..)
  have hfile : file ∈ s.paths := List.mem_map_of_mem hmem
  have hown : s.Own tag (tmpFile file tag) := ⟨_, hmem, rfl⟩
  have hdoneMem : ∀ p ∈ done, p.2 ∈ s.paths := by
    intro p hp
    refine List.mem_map_of_mem ?_
    rw [hplanned]
    exact List.mem_append_left _ hp
  -- what is done is not at the path that is written next
  have hne : ∀ p ∈ done, p.2 ≠ file := by
    intro p hp heq
    have hnodup := hs.nodup
    rw [State.paths, hplanned, List.map_append, List.nodup_append] at hnodup
    exact hnodup.2.2 p.2 (List.mem_map_of_mem hp) file (List.mem_cons_self ..) heq
  have hkeeps : ∀ {step : DiskStep}, (∀ g ∈ named step, s.Own tag g ∨ g = file) → ∀ p ∈ done,
      (step.apply s.disk.files).get p.2 = some (render C.host p.1) := by
    intro step hnamed p hp
    refine (get_apply_of_notMem fun hg => ?_).trans (hdone p hp)
    rcases hnamed p.2 hg with h | h
    · exact hs.not_own (hdoneMem p hp) h
    · exact hne p hp h
  have htmp : ∀ g ∈ [tmpFile file tag], s.Own tag g ∨ g = file := by
    intro g hg
    rw [List.mem_singleton] at hg
    exact .inl (hg ▸ hown)
  have hnamed : ∀ {step : DiskStep}, (∀ g ∈ named step, s.Own tag g ∨ g = file) →
      ∀ g ∈ named step, s.Own tag g ∨ g ∈ s.paths :=
    fun h g hg => (h g hg).imp_right fun heq : g = file => heq ▸ hfile
  unfold State.advance at ht
  rw [hpc] at ht
  cases stage with
  | recheck =>
    simp only at ht
    split at ht
    · cases ht
      exact inv_rollBack hs hsome
    · cases ht
      refine ⟨hs.md, hs.nodup, hs.others, hs.journal, hs.free, hsome, hcount, done, hplanned, hdone,
        ?_⟩
      intro p rest _
      exact head_of_ne (by decide) (by decide)
  | create =>
    cases ht
    refine inv_apply hs (hnamed htmp) ⟨hsome, hcount, done, hplanned, hkeeps htmp, ?_⟩
    intro p rest _
    exact head_of_ne (by decide) (by decide)
  | fill =>
    cases ht
    refine inv_apply hs (hnamed htmp) ⟨hsome, hcount, done, hplanned, hkeeps htmp, ?_⟩
    intro p rest hp
    cases hp
    exact ⟨fun _ => OrdMap.get_set_self .., fun h => absurd h (by decide)⟩
  | rename =>
    cases ht
    have htwo : ∀ g ∈ [tmpFile file tag, file], s.Own tag g ∨ g = file := by
      intro g hg
      rcases List.mem_cons.mp hg with rfl | hg
      · exact .inl hown
      · exact .inr (List.mem_singleton.mp hg)
    refine inv_apply hs (hnamed htwo) ⟨hsome, hcount, done, hplanned, hkeeps htwo, ?_⟩
    intro p rest hp
    cases hp
    refine ⟨fun h => absurd h (by decide), fun _ => ?_⟩
    have hfiletmp : file ≠ tmpFile file tag := fun h => hs.not_own hfile (h ▸ hown)
    simp only [State.apply, DiskStep.apply, hrename rfl]
    rw [get_delete_ne hfiletmp, OrdMap.get_set_self]
  | hook =>
    cases ht
    refine ⟨hs.md, hs.nodup, hs.others, hs.journal, hs.free, hsome, hcount, done ++ [(memory, file)],
      ?_, ?_, ?_⟩
    · rw [hplanned, List.append_assoc]
      rfl
    · intro p hp
      rcases List.mem_append.mp hp with hp | hp
      · exact hdone p hp
      · rw [List.mem_singleton] at hp
        subst hp
        exact hhook rfl
    · intro p rest _
      exact head_of_ne (by decide) (by decide)

/-- After the last memory everything that was planned is there. -/
theorem inv_finish {stage : Stage} (hs : Inv C tag memories s) (hpc : s.pc = .publishing [] stage) :
    Inv C tag memories { s with
      disk := { s.disk with journal := none }
      expected := addPlanned C s.expected s.planned
      pc := .succeeded s.planned.length s.skipped } := by
  have hstanding := hs.standing
  rw [hpc] at hstanding
  obtain ⟨-, hcount, done, hplanned, hdone, -⟩ := hstanding
  rw [List.append_nil] at hplanned
  subst hplanned
  obtain ⟨hadded, hother⟩ := @get_addPlanned C s.planned s.expected hs.nodup
  refine ⟨hs.md, hs.nodup, ?_, .inl rfl, fun h => absurd h (by simp), rfl, ?_, rfl, hcount⟩
  · exact fun g hown hg => (hs.others g hown hg).trans (hother g hg).symm
  · intro g hg
    obtain ⟨p, hp, rfl⟩ := List.mem_map.mp hg
    exact (hdone p hp).trans (hadded p hp).symm

/-- The journal is published over paths that are free. -/
theorem inv_journal {pc : Pc} (hs : Inv C tag memories s) (hpc : s.pc = .planning [])
    (hfree : ∀ p ∈ s.planned, s.disk.files.get p.2 = none)
    (hstanding : Standing C tag memories
      { s with disk := { s.disk with journal := some s.paths }, pc := pc } pc) :
    Inv C tag memories { s with disk := { s.disk with journal := some s.paths }, pc := pc } := by
  have hold := hs.standing
  rw [hpc] at hold
  refine ⟨hs.md, hs.nodup, hs.others, .inr rfl, ?_, hstanding⟩
  intro _ g hg
  obtain ⟨p, hp, rfl⟩ := List.mem_map.mp hg
  exact (hold.2.1 p.2 hg).symm.trans (hfree p hp)

/-- Where everything planned is unlinked, the files are as expected. -/
theorem paths_of_rolled {error : RemembraError} (hs : Inv C tag memories s)
    (hpc : s.pc = .rolling [] error) : ∀ g ∈ s.paths, s.disk.files.get g = s.expected.get g := by
  have hstanding := hs.standing
  rw [hpc] at hstanding
  intro g hg
  rw [hs.free hstanding.1 g hg]
  exact hstanding.2.2 g hg List.not_mem_nil

theorem inv_advance (hs : Inv C tag memories s) (hok : undisturbed s .advance = true)
    (ht : s.advance C tenant tag = some t) : Inv C tag memories t := by
  have hstanding := hs.standing
  cases hpc : s.pc with
  | planning rest =>
    cases rest with
    | cons memory rest =>
      simp only [State.advance, hpc, Option.some.injEq] at ht
      exact ht ▸ inv_plan hs hpc
    | nil =>
      rw [hpc] at hstanding
      obtain ⟨hnone, hpaths, hcount⟩ := hstanding
      simp only [State.advance, hpc] at ht
      split at ht
      · rename_i hempty
        cases ht
        rw [hempty] at hcount
        refine ⟨hs.md, hs.nodup, hs.others, hs.journal, hs.free, hnone, hpaths, ?_, hcount⟩
        rw [hempty]
        rfl
      · cases ht
        simp only [undisturbed, hpc, List.all_eq_true, Option.isNone_iff_eq_none] at hok
        refine inv_journal hs hpc hok ⟨rfl, hcount, [], rfl, ?_, ?_⟩
        · exact fun p hp => absurd hp List.not_mem_nil
        · exact fun p rest _ => head_of_ne (by decide) (by decide)
  | publishing todo stage =>
    cases todo with
    | nil =>
      simp only [State.advance, hpc, Option.some.injEq] at ht
      exact ht ▸ inv_finish hs hpc
    | cons p todo => exact inv_publish hs hpc ht
  | cleaning file error =>
    rw [hpc] at hstanding
    obtain ⟨p, hp, hfile⟩ := List.mem_map.mp hstanding.2
    simp only [State.advance, hpc, Option.some.injEq] at ht
    subst ht
    refine inv_rollBack (inv_apply hs ?_ hstanding) hstanding.1
    intro g hg
    rw [named, List.mem_singleton] at hg
    exact .inl ⟨p, hp, by rw [hg, hfile]⟩
  | rolling rest error =>
    rw [hpc] at hstanding
    obtain ⟨hsome, hrest, hgone⟩ := hstanding
    cases rest with
    | nil =>
      have hpaths := paths_of_rolled hs hpc
      simp only [State.advance, hpc, Option.some.injEq] at ht
      subst ht
      exact ⟨hs.md, hs.nodup, hs.others, .inl rfl, fun h => absurd h (by simp), hpaths⟩
    | cons file rest =>
      simp only [State.advance, hpc, Option.some.injEq] at ht
      subst ht
      refine inv_apply hs ?_ ⟨hsome, fun g hg => hrest g (List.mem_cons_of_mem _ hg), ?_⟩
      · intro g hg
        rw [named, List.mem_singleton] at hg
        exact .inr (hg ▸ hrest file (List.mem_cons_self ..))
      · intro g hg hnot
        simp only [State.apply, DiskStep.apply, OrdMap.get_delete]
        split
        · rfl
        · rename_i hne
          refine hgone g hg fun hmem => ?_
          rcases List.mem_cons.mp hmem with heq | hmem
          · exact hne heq
          · exact hnot hmem
  | failed error => simp [State.advance, hpc] at ht
  | succeeded imported skipped => simp [State.advance, hpc] at ht
  | crashed => simp [State.advance, hpc] at ht
  | recovered => simp [State.advance, hpc] at ht

theorem inv_fail {error : RemembraError} (hs : Inv C tag memories s)
    (hok : undisturbed s (.fail error) = true) (ht : s.fail error = some t) : Inv C tag memories t := by
  have hstanding := hs.standing
  cases hpc : s.pc with
  | planning rest =>
    cases rest with
    | cons memory rest => simp [State.fail, hpc] at ht
    | nil =>
      rw [hpc] at hstanding
      simp only [State.fail, hpc] at ht
      split at ht
      · cases ht
      · cases ht
        exact ⟨hs.md, hs.nodup, hs.others, hs.journal, hs.free, hstanding.2.1⟩
  | publishing todo stage =>
    rw [hpc] at hstanding
    cases todo with
    | nil =>
      simp only [State.fail, hpc, Option.some.injEq] at ht
      exact ht ▸ inv_rollBack hs hstanding.1
    | cons p todo =>
      have hfile : p.2 ∈ s.paths := by
        obtain ⟨-, -, done, hplanned, -, -⟩ := hstanding
        rw [State.paths, hplanned]
        exact List.mem_map_of_mem (List.mem_append_right _ (List.mem_cons_self ..))
      simp only [State.fail, hpc] at ht
      cases stage with
      | recheck => cases ht
      | hook =>
        cases ht
        exact inv_rollBack hs hstanding.1
      | create =>
        cases ht
        exact ⟨hs.md, hs.nodup, hs.others, hs.journal, hs.free, hstanding.1, hfile⟩
      | fill =>
        cases ht
        exact ⟨hs.md, hs.nodup, hs.others, hs.journal, hs.free, hstanding.1, hfile⟩
      | rename =>
        cases ht
        exact ⟨hs.md, hs.nodup, hs.others, hs.journal, hs.free, hstanding.1, hfile⟩
  | cleaning file error' =>
    rw [hpc] at hstanding
    simp only [State.fail, hpc, Option.some.injEq] at ht
    exact ht ▸ inv_rollBack hs hstanding.1
  | rolling rest error' =>
    rw [hpc] at hstanding
    obtain ⟨hsome, hrest, hgone⟩ := hstanding
    cases rest with
    | nil =>
      have hpaths := paths_of_rolled hs hpc
      simp only [State.fail, hpc, Option.some.injEq] at ht
      subst ht
      exact ⟨hs.md, hs.nodup, hs.others, hs.journal, hs.free, hpaths⟩
    | cons file rest =>
      simp only [State.fail, hpc, Option.some.injEq] at ht
      subst ht
      simp only [undisturbed, hpc, Option.isNone_iff_eq_none] at hok
      refine ⟨hs.md, hs.nodup, hs.others, hs.journal, hs.free, hsome,
        fun g hg => hrest g (List.mem_cons_of_mem _ hg), ?_⟩
      intro g hg hnot
      by_cases hgf : g = file
      · rw [hgf]
        exact hok
      · refine hgone g hg fun hmem => ?_
        rcases List.mem_cons.mp hmem with heq | hmem
        · exact hgf heq
        · exact hnot hmem
  | failed error' => simp [State.fail, hpc] at ht
  | succeeded imported skipped => simp [State.fail, hpc] at ht
  | crashed => simp [State.fail, hpc] at ht
  | recovered => simp [State.fail, hpc] at ht

/-- A recovery pass leaves nothing at the planned paths if it finds the journal. -/
theorem inv_reconcile {pc : Pc} (hs : Inv C tag memories s)
    (hstanding : ∀ t : State, (∀ g ∈ t.paths, t.disk.files.get g = t.expected.get g) →
      Standing C tag memories t pc) :
    Inv C tag memories { s with disk := reconcileSnapshotImport s.disk, pc := pc } := by
  rcases hs.journal with hnone | hsome
  · have hsame : reconcileSnapshotImport s.disk = s.disk := by
      simp only [reconcileSnapshotImport, hnone]
    rw [hsame]
    exact ⟨hs.md, hs.nodup, hs.others, hs.journal, hs.free, hstanding _ (hs.paths_of_none hnone)⟩
  · have hget : ∀ g, (reconcileSnapshotImport s.disk).files.get g =
        if g ∈ s.paths then none else s.disk.files.get g := by
      intro g
      simp only [reconcileSnapshotImport, hsome]
      exact get_foldl_delete
    have hnone : (reconcileSnapshotImport s.disk).journal = none := by
      simp only [reconcileSnapshotImport, hsome]
    refine ⟨hs.md, hs.nodup, ?_, .inl hnone, ?_, hstanding _ ?_⟩
    · intro g hown hg
      exact (hget g).trans ((if_neg hg).trans (hs.others g hown hg))
    · intro h
      exact absurd (hnone.symm.trans h) (by simp)
    · intro g hg
      exact (hget g).trans ((if_pos hg).trans (hs.free hsome g hg).symm)

theorem inv_step {a : Act} (hs : Inv C tag memories s) (hok : undisturbed s a = true)
    (ht : s.step C tenant tag a = some t) : Inv C tag memories t := by
  cases a with
  | advance => exact inv_advance hs hok ht
  | fail error => exact inv_fail hs hok ht
  | failLate error =>
    simp only [State.step] at ht
    split at ht
    · rename_i hpc
      split at ht
      · cases ht
      · cases ht
        simp only [undisturbed, hpc, List.all_eq_true, Option.isNone_iff_eq_none] at hok
        have hstanding := hs.standing
        rw [hpc] at hstanding
        exact inv_journal hs hpc hok hstanding.2.1
    · cases ht
  | die =>
    have hdied : t = { s with pc := .crashed } := by
      simp only [State.step] at ht
      split at ht <;> cases ht <;> rfl
    subst hdied
    exact ⟨hs.md, hs.nodup, hs.others, hs.journal, hs.free, hs.paths_of_none⟩
  | recover =>
    simp only [State.step] at ht
    split at ht
    · cases ht
      exact inv_reconcile hs fun t h => h
    · cases ht
      exact inv_reconcile hs fun t h => h
    · cases ht
  | other step =>
    simp only [State.step] at ht
    split at ht
    · rename_i hnamed
      cases ht
      refine inv_other hs hnamed fun paths hpaths g hg => ?_
      simp only [undisturbed, Option.all_eq_true, List.all_eq_true, decide_eq_true_iff] at hok
      exact hok paths hpaths g hg
    · cases ht

theorem inv_start (files : Files) : Inv C tag memories (start files memories) := by
  refine ⟨nofun, List.nodup_nil, fun g _ _ => rfl, .inl rfl, nofun, rfl, nofun, ?_⟩
  simp [start]

end Inv

/-- Over every run of an import with failures and crashes at any point, recovery passes and other
    writers: while the planned paths are left to it, the import is all or nothing and touches no file
    of anybody else. -/
theorem all_or_nothing (C : Config) (tenant : Option TenantFilter) (tag : String) (files : Files)
    (memories : List Memory) (as : List Act)
    (hok : Along (State.step C tenant tag) (fun s a => undisturbed s a = true)
      (start files memories) as) :
    Everywhere (State.step C tenant tag) (AllOrNothing tag memories) (start files memories) as :=
  everywhere_of_along (fun _ _ _ hs hok ht => inv_step hs hok ht) (fun _ hs => hs.allOrNothing) as
    (inv_start files) hok

/-- A write that fails after the journal is out, while somebody else adds a file. -/
theorem all_or_nothing_failing_write :
    Everywhere (State.step dataStore none "t") (AllOrNothing "t" [note])
      (start .empty [note])
      [.advance, .advance, .advance, .advance, .other (.create scopedFile .other),
        .fail noSuchFile, .advance, .advance, .advance] :=
  all_or_nothing dataStore none "t" .empty [note] _ (by decide +kernel)

/-- A file with an id of the batch that appears at its planned path makes the import fail, as it
    should, and is unlinked by the roll-back. -/
theorem conflict_removes_foreign_file :
    ¬ ∀ (C : Config) (tenant : Option TenantFilter) (tag : String) (files : Files)
      (memories : List Memory) (as : List Act),
      Everywhere (State.step C tenant tag) (AllOrNothing tag memories) (start files memories) as := by
  intro hall
  have hbad := hall dataStore none "t" .empty [note]
    [.advance, .advance, .other (.create noteFile .other), .advance, .advance, .advance]
  refine not_everywhere (fun s => match s.pc with
    | .failed _ => s.paths = [noteFile] && (s.disk.files.get noteFile).isNone &&
        (s.expected.get noteFile).isSome
    | _ => false) (by decide +kernel) ?_ hbad
  intro s hs
  split at hs
  · rename_i error hpc
    simp only [Bool.and_eq_true, decide_eq_true_iff, Option.isNone_iff_eq_none] at hs
    obtain ⟨⟨hpaths, hgone⟩, hexpected⟩ := hs
    intro hlaw
    have hown : ¬ s.Own "t" noteFile := by
      intro hown
      have hmd : isMd (noteFile.getLast?.getD "") = true := by decide
      rw [isMd_own hown] at hmd
      cases hmd
    have hsame := hlaw.failed error hpc noteFile hown
    rw [hgone] at hsame
    rw [← hsame] at hexpected
    cases hexpected
  · cases hs

end Remembra.Store.Import
