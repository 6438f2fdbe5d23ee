import Remembra.Tenant.File
import Remembra.Tenant.Revocation

/-! The directory file is atomic and durable as long as no load of the instance fails and every snapshot
    that is published loads again: whatever fails on the way, the file is that of the calls that were
    resolved, or of one more that is being published. A load that fails is kept, and no call is served
    after it (`failed_load_is_kept`). -/

namespace Remembra.Tenant
open InMemoryTenantDirectory Prog Transition

variable {c : FileSettings} {s t : Server} {d d' : InMemoryTenantDirectory}

/-! ### What a fresh instance loads -/

theorem reload_file (text : FileText) : reload c (.file text) =
    if c.maxBytes < text.bytes then .error (tooLarge c) else parseFile text := by
  change ((if c.maxBytes < text.bytes then .fail (tooLarge c) else readContents :
    FileProg InMemoryTenantDirectory).exec _ _).1 = _
  split
  · rfl
  · exact congrArg Prod.fst (exec_ofExcept _ (parseFile text) _)

theorem parseFile_serialized {state : TenantDirectorySnapshot} :
    parseFile (serialized c state) = .ok d ↔ d.snapshot = state ∧ Reloadable d := by
  rw [← fromSnapshot_eq_ok]
  simp only [parseFile, serialized]
  split <;> simp [*]

/-- What loads is a directory that loads. -/
theorem reloadable_of_reload {target : Target} (h : reload c target = .ok d) : Reloadable d := by
  cases target with
  | absent =>
    obtain rfl := Except.ok.inj h
    exact reloadable_empty
  | symlink => cases h
  | other => cases h
  | file text =>
    rw [reload_file] at h
    split at h
    · cases h
    · rw [parseFile] at h
      split at h
      any_goals cases h
      split at h
      · rename_i hload
        obtain rfl := Except.ok.inj h
        exact (fromSnapshot_eq_ok.mp hload).2
      all_goals cases h

/-- The file that a mutator publishes. -/
theorem reload_published {state : TenantDirectorySnapshot} :
    reload c (.file (serialized c state)) = .ok d ↔
      c.byteLength state ≤ c.maxBytes ∧ d.snapshot = state ∧ Reloadable d := by
  rw [reload_file]
  change (if c.maxBytes < c.byteLength state then _ else _) = _ ↔ _
  split
  · simp only [reduceCtorEq, false_iff, not_and]
    omega
  · rw [parseFile_serialized]
    exact (and_iff_right (by omega)).symm

/-! ### What is asked of a state -/

/-- The mutators that were resolved, in the order they ran in. -/
def Server.resolved (s : Server) : List Mutation :=
  s.log.filterMap fun r => match r.call, r.result with
    | .mutate m, .ok _ => some m
    | _, _ => none

/-- The mutator that is being published. -/
def Server.publishing (s : Server) : Option Mutation :=
  match s.running with
  | some { call := .mutate m, phase := .persisting _ _, .. } => some m
  | _ => none

/-- The instance's load has failed, or the running call is about to find that it has. -/
def Server.loadFailed (s : Server) : Bool :=
  match s.memory, s.running with
  | .failed _, _ => true
  | _, some { phase := .loading (.fail _), .. } => true
  | _, _ => false

/-- What the directory answers a call when nothing is raised. -/
def serves (c : FileSettings) (d : InMemoryTenantDirectory) :
    DirectoryCall → Except FileError DirectoryReply
  | .mutate m =>
    match d.apply m with
    | (.error e, _) => .error (.remembra e)
    | (.ok (), d') => if c.maxBytes < c.byteLength d'.snapshot then .error (tooLarge c) else .ok .done
  | call => .ok (d.reply call)

/-- A mutator that was rejected has left the directory and the file as they were. -/
def SettledCall.Atomic (r : SettledCall) : Prop :=
  ∀ m e, r.call = .mutate m → r.result = .error e → r.after = r.before

/-- A call that nothing was raised in is answered by the directory. -/
def SettledCall.Served (c : FileSettings) (r : SettledCall) : Prop :=
  r.faulted = false → ∃ d, r.before.state = .ok d ∧ r.result = serves c d r.call

def FileEvent.Faultless : FileEvent → Prop
  | .arrive _ => False
  | .operate fault => fault = none
  | .start | .resume => True

/-- From here the instance comes to the end of its queue. -/
def Server.Drains (c : FileSettings) (s : Server) : Prop :=
  ∃ events t, (∀ e ∈ events, FileEvent.Faultless e) ∧ run (fileStep c) s events = some t ∧
    t.running = none ∧ t.queue = []

/-- Atomic and durable, for an instance over a file as `start`. -/
structure Durable (c : FileSettings) (start : Target) (s : Server) : Prop where
  atomic : ∀ r ∈ s.log, r.Atomic
  /-- A crash leaves the calls that were resolved, or one more: the one being published. -/
  durable : ∀ d, reload c start = .ok d →
    reload c s.volume.target = .ok (d.applyAll s.resolved) ∨
      ∃ m, s.publishing = some m ∧ reload c s.volume.target = .ok (d.applyAll (s.resolved ++ [m]))
  /-- Between the calls the instance stands for the resolved ones. -/
  current : ∀ d, reload c start = .ok d → s.running = none →
    (s.view c).state = .ok (d.applyAll s.resolved)
  served : ∀ r ∈ s.log, r.Served c
  alive : s.loadFailed = false
  drains : s.Drains c

/-! ### What it takes -/

/-- What `readFromDisk` is content with. -/
def AnswersLoad (c : FileSettings) (target : Target) : FileQuestion → Prop
  | .lstat => target = .absent ∨ ∃ text, target = .file text ∧ text.bytes ≤ c.maxBytes
  | .readFile => target = .absent ∨ ∃ text, target = .file text ∧ ∃ d, parseFile text = .ok d
  | .act _ => True

/-- The condition on an event: an operation of a load raises nothing and finds what loads, and a rename
    publishes a directory whose snapshot the loader takes. -/
def FileMeets (c : FileSettings) (s : Server) : FileEvent → Prop
  | .operate fault => ∀ r, s.running = some r → r.answered = false →
      (∀ q next, r.phase = .loading (.ask q next) →
        raised fault = none ∧ AnswersLoad c s.volume.target q) ∧
      ∀ before next d, r.phase = .persisting before (.ask (.act .rename) next) → fault = none →
        s.memory = .loaded d → acceptsSnapshot d.snapshot = true
  | _ => True

/-! ### Publishing -/

/-- The file system, with a note of what it has raised. -/
def noted (q : FileQuestion) (fault : Option String) (w : Volume × Bool) :
    FileAnswer q × (Volume × Bool) :=
  ((w.1.handle q fault).1, ((w.1.handle q fault).2, w.2 || fault.isSome))

section Persist
variable (c) (target : Target) (state : TenantDirectorySnapshot)

/-- What the file system may do to a mutator. -/
def RenameLoads (q : FileQuestion) (fault : Option String) (_ : Volume × Bool) : Prop :=
  q = .act .rename → fault = none → acceptsSnapshot state = true

/-- The file is the old one, and what is about to be renamed is the new one. -/
def Prepared (q : FileQuestion) (w : Volume × Bool) : Prop :=
  w.1.target = target ∧ (q = .act .rename → w.1.temp = some (serialized c state))

def Published (_ : Unit) (w : Volume × Bool) : Prop :=
  acceptsSnapshot state = true ∧ c.byteLength state ≤ c.maxBytes ∧
    w.1.target = .file (serialized c state)

def NotPublished (e : FileError) (w : Volume × Bool) : Prop :=
  w.1.target = target ∧ (w.2 = false → c.maxBytes < c.byteLength state ∧ e = tooLarge c)

/-- The program publishes the state, or leaves the file. -/
def Publishes (p : FileProg Unit) (w : Volume × Bool) : Prop :=
  p.Guarantees noted (RenameLoads state) (Prepared c target state) (Published c state)
    (NotPublished c target state) w

variable {c target state} {w : Volume × Bool} {next : FileProg Unit}
  {otherwise : FileError → FileProg Unit}

theorem publishes_perform {a : FileAct} (hw : Prepared c target state (.act a) w)
    (hok : RenameLoads state (.act a) none w → (w.1.act a).1 = .ok () ∧
      Publishes c target state next ((w.1.act a).2, w.2))
    (hfail : ∀ code, Publishes c target state (otherwise (.io code)) (w.1.fail a, true)) :
    Publishes c target state (perform a next otherwise) w := by
  refine ⟨hw, fun fault hG => ?_⟩
  cases fault with
  | none =>
    obtain ⟨hanswer, hnext⟩ := hok hG
    simp only [noted, Volume.handle, hanswer, Option.isSome_none, Bool.or_false]
    exact hnext
  | some code =>
    simp only [noted, Volume.handle, Option.isSome_some, Bool.or_true]
    exact hfail code

theorem publishes_unlinkTemp {e : FileError} (hw : w.1.target = target) (hfault : w.2 = true) :
    Publishes c target state (unlinkTemp e) w := by
  refine publishes_perform ⟨hw, nofun⟩ (fun _ => ⟨rfl, hw, ?_⟩) fun code => ⟨hw, by simp⟩
  rw [hfault]
  nofun

theorem publishes_closeHandle {e : FileError} (hw : w.1.target = target) (hfault : w.2 = true) :
    Publishes c target state (closeHandle e) w :=
  publishes_perform ⟨hw, nofun⟩ (fun _ => ⟨rfl, publishes_unlinkTemp hw hfault⟩)
    fun _ => publishes_unlinkTemp hw rfl

theorem publishes_publish (hw : w.1.target = target) (hsize : c.byteLength state ≤ c.maxBytes) :
    Publishes c target state (publish (serialized c state)) w := by
  refine publishes_perform ⟨hw, nofun⟩ (fun _ => ⟨rfl, ?_⟩) fun _ => publishes_unlinkTemp hw rfl
  refine publishes_perform ⟨hw, nofun⟩ (fun _ => ⟨rfl, ?_⟩) fun _ => publishes_closeHandle hw rfl
  refine publishes_perform ⟨hw, nofun⟩ (fun _ => ⟨rfl, ?_⟩) fun _ => publishes_closeHandle hw rfl
  refine publishes_perform ⟨hw, nofun⟩ (fun _ => ⟨rfl, ?_⟩) fun _ => publishes_closeHandle hw rfl
  refine publishes_perform ⟨hw, fun _ => rfl⟩ (fun hG => ⟨rfl, ?_⟩) fun _ => publishes_unlinkTemp hw rfl
  exact ⟨hG rfl rfl, hsize, rfl⟩

theorem publishes_publishWithin (hw : w.1.target = target) :
    Publishes c target state (publishWithin c state) w := by
  rw [publishWithin]
  split
  · rename_i hlarge
    exact ⟨hw, fun _ => ⟨hlarge, rfl⟩⟩
  · rename_i hsmall
    exact publishes_publish hw (by omega)

/-- What `persist` does over a file that loads. -/
theorem publishes_persist (hw : w.1.target = target) (hload : reload c target = .ok d) :
    Publishes c target state (persist c state) w := by
  refine publishes_perform ⟨hw, nofun⟩ (fun _ => ⟨rfl, ⟨hw, nofun⟩, fun fault _ => ?_⟩)
    fun code => ⟨hw, nofun⟩
  rcases hraised : raised fault with _ | code
  · simp only [noted, Volume.handle, Volume.act, hraised, hw]
    cases target with
    | absent => exact publishes_publishWithin hw
    | symlink => cases hload
    | other => cases hload
    | file text => exact publishes_publishWithin hw
  · obtain ⟨rfl, hcode⟩ := Option.filter_eq_some_iff.mp hraised
    simp only [noted, Volume.handle, Volume.act, hraised]
    change Guarantees _ _ _ _ _ (if code = "ENOENT" then _ else _) _
    rw [if_neg (of_decide_eq_true hcode)]
    exact ⟨hw, by simp⟩

end Persist

/-! ### The invariant -/

variable {start : Target} {d₀ : InMemoryTenantDirectory} {r : RunningCall}

/-- Where a load that goes well can be. -/
def LoadingAt (c : FileSettings) (start : Target) (r : RunningCall) : Prop :=
  r.opened = ⟨start, reload c start⟩ ∧
    (r.answered = false ∧ r.phase = .loading (readFromDisk c) ∨
      (r.phase = .loading readContents ∧ ∃ text, start = .file text ∧ text.bytes ≤ c.maxBytes) ∨
      ∃ d, r.phase = .loading (.done d) ∧ reload c start = .ok d)

/-- Nothing is loaded yet. -/
structure BeforeLoad (c : FileSettings) (start : Target) (s : Server) : Prop where
  memory : s.memory = .fresh
  log : s.log = []
  target : s.volume.target = start
  running : ∀ r, s.running = some r → LoadingAt c start r

/-- A mutator that is being published: the directory in memory is ahead of the file, or the file is
    renamed already. -/
structure PublishingAt (c : FileSettings) (d d' : InMemoryTenantDirectory) (m : Mutation) (s : Server)
    (r : RunningCall) : Prop where
  call : r.call = .mutate m
  applied : d.apply m = (.ok (), d')
  memory : s.memory = .loaded d'
  publishes : ∃ target rest, r.opened = ⟨target, .ok d⟩ ∧ reload c target = .ok d ∧
    r.phase = .persisting d.snapshot rest ∧ (r.answered = false → ∃ q next, rest = .ask q next) ∧
      Publishes c target d'.snapshot rest (s.volume, r.faulted)

/-- The directory is loaded, and the calls that were resolved are what has come of it. -/
structure AfterLoad (c : FileSettings) (start : Target) (d₀ d : InMemoryTenantDirectory) (s : Server) :
    Prop where
  start : reload c start = .ok d₀
  resolved : d₀.applyAll s.resolved = d
  reloadable : Reloadable d
  log : ∀ r ∈ s.log, r.Atomic ∧ r.Served c
  idle : s.running = none → s.memory = .loaded d ∧ reload c s.volume.target = .ok d
  running : ∀ r, s.running = some r → ∃ m d', PublishingAt c d d' m s r

def FileInv (c : FileSettings) (start : Target) (s : Server) : Prop :=
  BeforeLoad c start s ∨ ∃ d₀ d, AfterLoad c start d₀ d s

/-! ### Settling a call -/

/-- The mutator of a call that is answered so, if it is resolved. -/
def resolvedBy (call : DirectoryCall) (result : Except FileError DirectoryReply) : List Mutation :=
  match call, result with
  | .mutate m, .ok _ => [m]
  | _, _ => []

theorem resolved_settle (result : Except FileError DirectoryReply) :
    (s.settle c r result).resolved = s.resolved ++ resolvedBy r.call result := by
  simp only [Server.resolved, Server.settle, List.filterMap_append, resolvedBy]
  cases r.call <;> cases result <;> rfl

/-- A call is answered, and the instance is idle again. -/
theorem afterLoad_settle {result : Except FileError DirectoryReply}
    (hstart : reload c start = .ok d₀) (hlog : ∀ r ∈ s.log, r.Atomic ∧ r.Served c)
    (hmemory : s.memory = .loaded d) (htarget : reload c s.volume.target = .ok d)
    (hresolved : d₀.applyAll (s.resolved ++ resolvedBy r.call result) = d)
    (hatomic : (SettledCall.mk r.call result r.opened (s.view c) r.faulted).Atomic)
    (hserved : (SettledCall.mk r.call result r.opened (s.view c) r.faulted).Served c) :
    AfterLoad c start d₀ d (s.settle c r result) := by
  refine ⟨hstart, ?_, reloadable_of_reload htarget, ?_, fun _ => ⟨hmemory, htarget⟩, ?_⟩
  · rw [resolved_settle, hresolved]
  · intro r' hr'
    rcases List.mem_append.mp hr' with hold | hnew
    · exact hlog r' hold
    · obtain rfl := List.mem_singleton.mp hnew
      exact ⟨hatomic, hserved⟩
  · rintro r' ⟨⟩

/-- A mutator that is rejected takes the directory back. -/
theorem afterLoad_rollback {m : Mutation} {e : FileError} (hstart : reload c start = .ok d₀)
    (hlog : ∀ r ∈ s.log, r.Atomic ∧ r.Served c) (hresolved : d₀.applyAll s.resolved = d)
    (htarget : reload c s.volume.target = .ok d) (hcall : r.call = .mutate m)
    (hopened : r.opened = ⟨s.volume.target, .ok d⟩)
    (hserved : r.faulted = false → serves c d (.mutate m) = .error e) :
    AfterLoad c start d₀ d (s.rollback c r d.snapshot e) := by
  rw [Server.rollback, fromSnapshot_snapshot (reloadable_of_reload htarget)]
  refine afterLoad_settle hstart hlog rfl htarget ?_ ?_ ?_
  · rw [hcall]
    exact (congrArg d₀.applyAll (List.append_nil _)).trans hresolved
  · intro m' e' _ _
    exact hopened.symm
  · intro hfault
    exact ⟨d, congrArg View.state hopened, by rw [hcall]; exact (hserved hfault).symm⟩

/-- A call that changes nothing is answered. -/
theorem afterLoad_reply (hstart : reload c start = .ok d₀)
    (hlog : ∀ r ∈ s.log, r.Atomic ∧ r.Served c) (hresolved : d₀.applyAll s.resolved = d)
    (hmemory : s.memory = .loaded d) (htarget : reload c s.volume.target = .ok d)
    (hopened : r.opened.state = .ok d) (hnot : ∀ m, r.call ≠ .mutate m)
    (hserves : serves c d r.call = .ok (d.reply r.call)) :
    AfterLoad c start d₀ d (s.settle c r (.ok (d.reply r.call))) := by
  refine afterLoad_settle hstart hlog hmemory htarget ?_ ?_ ?_
  · have hnone : resolvedBy r.call (.ok (d.reply r.call)) = [] := by
      cases hcall : r.call
      case mutate m => exact absurd hcall (hnot m)
      all_goals rfl
    rw [hnone, List.append_nil, hresolved]
  · intro m e hcall
    exact absurd hcall (hnot m)
  · intro _
    exact ⟨d, hopened, hserves.symm⟩

/-- The body of a call over the directory. -/
theorem afterLoad_serve (hstart : reload c start = .ok d₀)
    (hlog : ∀ r ∈ s.log, r.Atomic ∧ r.Served c) (hresolved : d₀.applyAll s.resolved = d)
    (hmemory : s.memory = .loaded d) (htarget : reload c s.volume.target = .ok d)
    (hopened : r.opened = ⟨s.volume.target, .ok d⟩) :
    AfterLoad c start d₀ d (s.serve c r d) := by
  obtain ⟨call, phase, answered, opened, faulted⟩ := r
  have hstate : opened.state = .ok d := congrArg View.state hopened
  cases call with
  | load => exact afterLoad_reply hstart hlog hresolved hmemory htarget hstate nofun rfl
  | getMembershipVersion o => exact afterLoad_reply hstart hlog hresolved hmemory htarget hstate nofun rfl
  | verifyContext context => exact afterLoad_reply hstart hlog hresolved hmemory htarget hstate nofun rfl
  | snapshot => exact afterLoad_reply hstart hlog hresolved hmemory htarget hstate nofun rfl
  | mutate m =>
    simp only [Server.serve]
    rcases happly : d.apply m with ⟨e | ⟨⟩, d'⟩
    · refine afterLoad_rollback hstart hlog hresolved htarget rfl hopened fun _ => ?_
      rw [serves, happly]
    · refine ⟨hstart, hresolved, reloadable_of_reload htarget, hlog, nofun, ?_⟩
      rintro r' hr'
      obtain rfl := Option.some.inj hr'
      exact ⟨m, d', rfl, happly, rfl, s.volume.target, _, hopened, htarget, rfl,
        fun _ => ⟨_, _, rfl⟩, publishes_persist rfl htarget⟩

/-! ### Each event keeps the invariant -/

theorem fileInv_arrive {call : DirectoryCall} (h : FileInv c start s) :
    FileInv c start { s with queue := s.queue ++ [call] } := by
  obtain ⟨hm, hl, ht, hr⟩ | ⟨d₀, d, hs, hb, hd, hl, hi, hr⟩ := h
  · exact .inl ⟨hm, hl, ht, hr⟩
  · refine .inr ⟨d₀, d, hs, hb, hd, hl, hi, fun r hrun => ?_⟩
    obtain ⟨m, d', hcall, happly, hmemory, hpub⟩ := hr r hrun
    exact ⟨m, d', hcall, happly, hmemory, hpub⟩

theorem fileInv_start (h : FileInv c start s) (hstep : s.start c = some t) : FileInv c start t := by
  obtain ⟨volume, memory, queue, running, log⟩ := s
  unfold Server.start at hstep
  split at hstep
  · rename_i call queue hrun hqueue
    obtain ⟨hm, hl, ht, hr⟩ | ⟨d₀, d, hs, hb, hd, hl, hi, hr⟩ := h
    · obtain rfl : memory = .fresh := hm
      obtain rfl := Option.some.inj hstep
      refine .inl ⟨rfl, hl, ht, fun r hr => ?_⟩
      obtain rfl := Option.some.inj hr
      exact ⟨congrArg (fun target => View.mk target (reload c target)) ht, .inl ⟨rfl, rfl⟩⟩
    · obtain ⟨hmemory, htarget⟩ := hi hrun
      obtain rfl : memory = .loaded d := hmemory
      obtain rfl := Option.some.inj hstep
      exact .inr ⟨d₀, d, afterLoad_serve hs hl hb rfl htarget rfl⟩
  · cases hstep

/-- The operations of a load that goes well. -/
theorem loadingAt_operate {fault : Option String} {v : Volume} {call : DirectoryCall} {opened : View}
    {faulted : Bool} {q : FileQuestion} {next : FileAnswer q → FileProg InMemoryTenantDirectory}
    (h : LoadingAt c start ⟨call, .loading (.ask q next), false, opened, faulted⟩)
    (htarget : v.target = start) (hraised : raised fault = none) (hanswers : AnswersLoad c v.target q) :
    (v.handle q fault).2.target = start ∧
      LoadingAt c start ⟨call, .loading (next (v.handle q fault).1), true, opened,
        faulted || fault.isSome⟩ := by
  obtain ⟨hopened, ⟨-, hphase⟩ | ⟨hphase, text, hfile, hsize⟩ | ⟨d, hphase, -⟩⟩ := h
  · obtain ⟨rfl, hnext⟩ := Prog.ask.inj (Phase.loading.inj hphase)
    obtain rfl := eq_of_heq hnext
    subst htarget
    refine ⟨rfl, hopened, ?_⟩
    simp only [Volume.handle, hraised]
    obtain habsent | ⟨text, hfile, hsize⟩ := hanswers
    · rw [habsent]
      exact .inr (.inr ⟨{}, rfl, rfl⟩)
    · rw [hfile]
      refine .inr (.inl ⟨congrArg Phase.loading ?_, text, rfl, hsize⟩)
      exact if_neg (by exact Nat.not_lt.mpr hsize)
  · obtain ⟨rfl, hnext⟩ := Prog.ask.inj (Phase.loading.inj hphase)
    obtain rfl := eq_of_heq hnext
    subst htarget
    refine ⟨rfl, hopened, .inr (.inr ?_)⟩
    simp only [Volume.handle, hraised]
    obtain habsent | ⟨text', hfile', d, hparse⟩ := hanswers
    · rw [hfile] at habsent
      cases habsent
    · rw [hfile] at hfile' ⊢
      obtain rfl := Target.file.inj hfile'
      refine ⟨d, congrArg Phase.loading (congrArg Prog.ofExcept hparse), ?_⟩
      rw [reload_file, if_neg (by omega), hparse]
  · cases Phase.loading.inj hphase

theorem fileInv_operate {fault : Option String} (h : FileInv c start s)
    (hmeets : FileMeets c s (.operate fault)) (hstep : s.operate fault = some t) : FileInv c start t := by
  unfold Server.operate at hstep
  split at hstep
  · rename_i call q next opened faulted hrun
    obtain rfl := Option.some.inj hstep
    obtain ⟨hm, hl, ht, hr⟩ | ⟨d₀, d, hs, hb, hd, hl, hi, hr⟩ := h
    · obtain ⟨hraised, hanswers⟩ := (hmeets _ hrun rfl).1 q next rfl
      obtain ⟨htarget, hloading⟩ := loadingAt_operate (hr _ hrun) ht hraised hanswers
      refine .inl ⟨hm, hl, htarget, fun r hr => ?_⟩
      obtain rfl := Option.some.inj hr
      exact hloading
    · obtain ⟨m, d', -, -, -, target, rest, -, -, hphase, -⟩ := hr _ hrun
      cases hphase
  · rename_i call before q next opened faulted hrun
    obtain rfl := Option.some.inj hstep
    obtain ⟨hm, hl, ht, hr⟩ | ⟨d₀, d, hs, hb, hd, hl, hi, hr⟩ := h
    · obtain ⟨-, ⟨-, hphase⟩ | ⟨hphase, -⟩ | ⟨d, hphase, -⟩⟩ := hr _ hrun <;> cases hphase
    · obtain ⟨m, d', hcall, happly, hmemory, target, rest, hopened, htarget, hphase, -, hpub⟩ := hr _ hrun
      obtain ⟨rfl, rfl⟩ := Phase.persisting.inj hphase
      refine .inr ⟨d₀, d, hs, hb, hd, hl, nofun, fun r hr => ?_⟩
      obtain rfl := Option.some.inj hr
      refine ⟨m, d', hcall, happly, hmemory, target, _, hopened, htarget, rfl, nofun, ?_⟩
      refine hpub.2 fault fun hrename hnone => ?_
      subst hrename
      exact (hmeets _ hrun rfl).2 _ next d' rfl hnone hmemory
  · cases hstep

/-- A mutator that is done: the file is the new directory's. -/
theorem afterLoad_done {m : Mutation} (hstart : reload c start = .ok d₀)
    (hlog : ∀ r ∈ s.log, r.Atomic ∧ r.Served c) (hresolved : d₀.applyAll s.resolved = d)
    (hd : Reloadable d) (hcall : r.call = .mutate m) (happly : d.apply m = (.ok (), d'))
    (hmemory : s.memory = .loaded d') (hopened : r.opened.state = .ok d)
    (hpub : Published c d'.snapshot () (s.volume, r.faulted)) :
    AfterLoad c start d₀ d' (s.settle c r (.ok .done)) := by
  obtain ⟨haccepts, hsize, htarget⟩ := hpub
  have hsound : Sound d' := by simpa [happly] using hd.1.apply m
  refine afterLoad_settle hstart hlog hmemory ?_ ?_ ?_ ?_
  · rw [htarget, reload_published]
    exact ⟨hsize, rfl, hsound, haccepts⟩
  · rw [hcall, resolvedBy, applyAll_append, hresolved, applyAll_cons, happly]
    rfl
  · intro _ _ _ herror
    cases herror
  · intro _
    refine ⟨d, hopened, ?_⟩
    rw [hcall, serves, happly]
    exact (if_neg (by omega)).symm

theorem fileInv_resume (h : FileInv c start s) (hstep : s.resume c = some t) : FileInv c start t := by
  unfold Server.resume at hstep
  split at hstep
  · cases hstep
  · rename_i r hrun
    obtain ⟨hm, hl, ht, hr⟩ | ⟨d₀, d, hs, hb, hd, hl, hi, hr⟩ := h
    · obtain ⟨hopened, ⟨hnot, hphase⟩ | ⟨hphase, hfile⟩ | ⟨d, hphase, hload⟩⟩ := hr _ hrun
      · simp [hphase, readFromDisk, hnot] at hstep
      · rw [hphase] at hstep
        simp only [readContents] at hstep
        split at hstep
        · obtain rfl := Option.some.inj hstep
          refine .inl ⟨hm, hl, ht, fun r hr => ?_⟩
          obtain rfl := Option.some.inj hr
          exact ⟨hopened, .inr (.inl ⟨rfl, hfile⟩)⟩
        · cases hstep
      · simp only [hphase, Option.some.injEq] at hstep
        subst hstep
        refine .inr ⟨d, d, afterLoad_serve hload (by simp [hl]) ?_ rfl (ht ▸ hload) ?_⟩
        · simp [Server.resolved, hl, applyAll]
        · simp [hopened, hload, ht]
    · obtain ⟨m, d', hcall, happly, hmemory, target, rest, hopened, htarget, hphase, -, hpub⟩ := hr _ hrun
      rw [hphase] at hstep
      cases rest with
      | ask q next =>
        simp only at hstep
        split at hstep
        · obtain rfl := Option.some.inj hstep
          refine .inr ⟨d₀, d, hs, hb, hd, hl, nofun, fun r hr => ?_⟩
          obtain rfl := Option.some.inj hr
          exact ⟨m, d', hcall, happly, hmemory, target, _, hopened, htarget, rfl,
            fun _ => ⟨q, next, rfl⟩, hpub⟩
        · cases hstep
      | done u =>
        obtain rfl := Option.some.inj hstep
        exact .inr ⟨d₀, d', afterLoad_done hs hl hb hd hcall happly hmemory
          (congrArg View.state hopened) hpub⟩
      | fail e =>
        obtain rfl := Option.some.inj hstep
        obtain ⟨hsame, hwhy⟩ := hpub
        refine .inr ⟨d₀, d, afterLoad_rollback hs hl hb ?_ hcall ?_ fun hfault => ?_⟩
        · exact hsame ▸ htarget
        · exact hopened.trans (congrArg (View.mk · (.ok d)) hsame.symm)
        · obtain ⟨hlarge, rfl⟩ := hwhy hfault
          rw [serves, happly]
          exact if_pos hlarge

/-- The step lemma. -/
theorem fileInv_step {e : FileEvent} (h : FileInv c start s) (hmeets : FileMeets c s e)
    (hstep : fileStep c s e = some t) : FileInv c start t := by
  cases e with
  | arrive call =>
    obtain rfl := Option.some.inj hstep
    exact fileInv_arrive h
  | start => exact fileInv_start h hstep
  | operate fault => exact fileInv_operate h hmeets hstep
  | resume => exact fileInv_resume h hstep

/-! ### The queue is worked off -/

/-- The instance comes to the end of the running call, with the same calls waiting. -/
def Server.Finishes (c : FileSettings) (s : Server) : Prop :=
  ∃ events t, (∀ e ∈ events, FileEvent.Faultless e) ∧ run (fileStep c) s events = some t ∧
    t.running = none ∧ t.queue = s.queue

theorem Server.Finishes.of_step {e : FileEvent} (hstep : fileStep c s e = some t) (he : e.Faultless)
    (hqueue : t.queue = s.queue) (h : t.Finishes c) : s.Finishes c := by
  obtain ⟨events, u, hall, hrun, hidle, hsame⟩ := h
  refine ⟨e :: events, u, ?_, run_cons_some.mpr ⟨t, hstep, hrun⟩, hidle, hsame.trans hqueue⟩
  rintro e' (_ | ⟨_, he'⟩)
  · exact he
  · exact hall e' he'

theorem Server.Finishes.of_idle (h : s.running = none) : s.Finishes c :=
  ⟨[], s, by simp, rfl, h, rfl⟩

theorem rollback_idle (before : TenantDirectorySnapshot) (e : FileError) :
    (s.rollback c r before e).running = none ∧ (s.rollback c r before e).queue = s.queue := by
  rw [Server.rollback]
  split <;> exact ⟨rfl, rfl⟩

/-- A call that waits for one operation after the other comes to the end of its program. -/
theorem finishes_waiting {α : Type} (wrap : FileProg α → Phase)
    (hoperate : ∀ {s : Server} {call q next opened faulted},
      s.running = some ⟨call, wrap (.ask q next), false, opened, faulted⟩ →
      s.operate none = some { s with
        volume := (s.volume.handle q none).2
        running := some ⟨call, wrap (next (s.volume.handle q none).1), true, opened, faulted⟩ })
    (hresume : ∀ {s : Server} {call q next opened faulted},
      s.running = some ⟨call, wrap (.ask q next), true, opened, faulted⟩ →
      s.resume c = some { s with running := some ⟨call, wrap (.ask q next), false, opened, faulted⟩ })
    (hend : ∀ {s : Server} {r : RunningCall} {rest}, s.running = some r → r.phase = wrap rest →
      (∀ q next, rest ≠ .ask q next) → s.Finishes c)
    (rest : FileProg α) (hrun : s.running = some r) (hphase : r.phase = wrap rest) : s.Finishes c := by
  obtain ⟨call, phase, answered, opened, faulted⟩ := r
  obtain rfl : phase = wrap rest := hphase
  induction rest generalizing s answered faulted with
  | done u => exact hend hrun rfl nofun
  | fail e => exact hend hrun rfl nofun
  | ask q next ih =>
    have hasked : ∀ {s : Server} {faulted : Bool},
        s.running = some ⟨call, wrap (.ask q next), false, opened, faulted⟩ → s.Finishes c :=
      fun hrun => .of_step (e := .operate none) (hoperate hrun) rfl rfl (ih _ _ _ rfl)
    cases answered with
    | false => exact hasked hrun
    | true => exact .of_step (e := .resume) (hresume hrun) trivial rfl (hasked rfl)

theorem finishes_persisting {before : TenantDirectorySnapshot} {rest : FileProg Unit}
    (hrun : s.running = some r) (hphase : r.phase = .persisting before rest) : s.Finishes c := by
  refine finishes_waiting (.persisting before) (fun h => ?_) (fun h => ?_) ?_ rest hrun hphase
  · simp [Server.operate, h]
  · simp [Server.resume, h]
  · intro s r rest hrun hphase hnot
    cases rest with
    | ask q next => exact absurd rfl (hnot q next)
    | done u =>
      refine .of_step (e := .resume) (t := s.settle c { r with answered := false } (.ok .done)) ?_ trivial
        rfl (.of_idle rfl)
      simp [fileStep, Server.resume, hrun, hphase]
    | fail e =>
      obtain ⟨hidle, hqueue⟩ :=
        rollback_idle (c := c) (s := s) (r := { r with answered := false }) before e
      refine .of_step (e := .resume) ?_ trivial hqueue (.of_idle hidle)
      simp [fileStep, Server.resume, hrun, hphase]

theorem finishes_serve (d : InMemoryTenantDirectory) :
    (s.serve c r d).Finishes c ∧ (s.serve c r d).queue = s.queue := by
  obtain ⟨call, phase, answered, opened, faulted⟩ := r
  cases call with
  | mutate m =>
    simp only [Server.serve]
    rcases d.apply m with ⟨e | ⟨⟩, d'⟩
    · obtain ⟨hidle, hqueue⟩ := rollback_idle (c := c) (s := { s with memory := .loaded d' })
        (r := ⟨.mutate m, phase, answered, opened, faulted⟩) d.snapshot (.remembra e)
      exact ⟨.of_idle hidle, hqueue⟩
    · exact ⟨finishes_persisting rfl rfl, rfl⟩
  | _ => exact ⟨.of_idle rfl, rfl⟩

theorem finishes_loading {rest : FileProg InMemoryTenantDirectory} (hrun : s.running = some r)
    (hphase : r.phase = .loading rest) : s.Finishes c := by
  refine finishes_waiting .loading (fun h => ?_) (fun h => ?_) ?_ rest hrun hphase
  · simp [Server.operate, h]
  · simp [Server.resume, h]
  · intro s r rest hrun hphase hnot
    cases rest with
    | ask q next => exact absurd rfl (hnot q next)
    | done d =>
      obtain ⟨hfinishes, hqueue⟩ := finishes_serve (c := c) (s := { s with memory := .loaded d })
        (r := { r with answered := false }) d
      refine .of_step (e := .resume) ?_ trivial hqueue hfinishes
      simp [fileStep, Server.resume, hrun, hphase]
    | fail e =>
      refine .of_step (e := .resume) (t := { s with memory := .failed e }.settle c
        { r with answered := false } (.error e)) ?_ trivial rfl (.of_idle rfl)
      simp [fileStep, Server.resume, hrun, hphase]

theorem finishes (s : Server) : s.Finishes c := by
  rcases hrun : s.running with _ | r
  · exact .of_idle hrun
  · cases hphase : r.phase with
    | loading rest => exact finishes_loading hrun hphase
    | persisting before rest => exact finishes_persisting hrun hphase

/-- The next call of the queue begins, and the instance comes to its end. -/
theorem start_finishes {call : DirectoryCall} {queue : List DirectoryCall} (hrun : s.running = none)
    (hqueue : s.queue = call :: queue) :
    ∃ t, fileStep c s .start = some t ∧ t.Finishes c ∧ t.queue = queue := by
  obtain ⟨volume, memory, _, _, log⟩ := s
  subst hrun hqueue
  cases memory with
  | fresh => exact ⟨_, rfl, finishes _, rfl⟩
  | failed e => exact ⟨_, rfl, finishes _, rfl⟩
  | loaded d => exact ⟨_, rfl, finishes _, (finishes_serve d).2⟩

/-- Whatever has failed, the calls that wait are answered. -/
theorem drains (s : Server) : s.Drains c := by
  suffices h : ∀ queue (s : Server), s.running = none → s.queue = queue → s.Drains c by
    obtain ⟨events, t, hall, hrun, hidle, -⟩ := finishes (c := c) s
    obtain ⟨events', u, hall', hrun', hu⟩ := h _ t hidle rfl
    exact ⟨events ++ events', u, fun e he => (List.mem_append.mp he).elim (hall e) (hall' e),
      run_append_some.mpr ⟨t, hrun, hrun'⟩, hu⟩
  intro queue
  induction queue with
  | nil => exact fun s hidle hqueue => ⟨[], s, by simp, rfl, hidle, hqueue⟩
  | cons call queue ih =>
    intro s hidle hqueue
    obtain ⟨t, hstart, ⟨events, u, hall, hrun, hidle', hsame⟩, hrest⟩ := start_finishes (c := c) hidle hqueue
    obtain ⟨events', v, hall', hrun', hv⟩ := ih u hidle' (hsame.trans hrest)
    refine ⟨.start :: (events ++ events'), v, ?_, ?_, hv⟩
    · rintro e (_ | ⟨_, he⟩)
      · trivial
      · exact (List.mem_append.mp he).elim (hall e) (hall' e)
    · exact run_cons_some.mpr ⟨t, hstart, run_append_some.mpr ⟨u, hrun, hrun'⟩⟩

/-! ### Every run -/

theorem not_loadFailed (hmemory : ∀ e, s.memory ≠ .failed e)
    (hrunning : ∀ r e, s.running = some r → r.phase ≠ .loading (.fail e)) : s.loadFailed = false := by
  unfold Server.loadFailed
  split
  · rename_i hfailed
    exact absurd hfailed (hmemory _)
  · rename_i hrun _
    exact absurd rfl (hrunning _ _ hrun)
  · rfl

/-- The invariant gives what is asked. -/
theorem durable_of_inv (h : FileInv c start s) : Durable c start s := by
  obtain ⟨hm, hl, ht, hr⟩ | ⟨d₀, d, hs, hb, hd, hl, hi, hr⟩ := h
  · have hresolved : s.resolved = [] := by rw [Server.resolved, hl]; rfl
    refine ⟨by simp [hl], fun d hload => .inl ?_, fun d hload _ => ?_, by simp [hl], ?_, drains s⟩
    · rw [ht, hresolved]
      exact hload
    · rw [Server.view, hm, ht, hresolved]
      exact hload
    · refine not_loadFailed (by simp [hm]) fun r e hrun hphase => ?_
      obtain ⟨-, ⟨-, hat⟩ | ⟨hat, -⟩ | ⟨d, hat, -⟩⟩ := hr r hrun <;> cases hphase.symm.trans hat
  · refine ⟨fun r hr => (hl r hr).1, fun d₁ hload => ?_, fun d₁ hload hidle => ?_,
      fun r hr => (hl r hr).2, ?_, drains s⟩
    · obtain rfl : d₀ = d₁ := Except.ok.inj (hs.symm.trans hload)
      rw [hb]
      rcases hrun : s.running with _ | r
      · exact .inl (hi hrun).2
      · obtain ⟨m, d', hcall, happly, hmemory, target, rest, hopened, htarget, hphase, -, hpub⟩ := hr r hrun
        have hpublishing : s.publishing = some m := by
          obtain ⟨call, phase, answered, opened, faulted⟩ := r
          simp only at hcall hphase
          rw [Server.publishing, hrun, hcall, hphase]
        cases rest with
        | ask q next => exact .inl (hpub.1.1 ▸ htarget)
        | fail e => exact .inl (hpub.1 ▸ htarget)
        | done u =>
          refine .inr ⟨m, hpublishing, ?_⟩
          obtain ⟨haccepts, hsize, hnew⟩ := hpub
          have hsound : Sound d' := by simpa [happly] using hd.1.apply m
          rw [applyAll_append, hb, applyAll_cons, happly, hnew]
          exact reload_published.mpr ⟨hsize, rfl, hsound, haccepts⟩
    · obtain rfl : d₀ = d₁ := Except.ok.inj (hs.symm.trans hload)
      rw [Server.view, (hi hidle).1, hb]
    · refine not_loadFailed (fun e hfailed => ?_) fun r e hrun hphase => ?_
      · rcases hrun : s.running with _ | r
        · cases hfailed.symm.trans (hi hrun).1
        · obtain ⟨m, d', -, -, hmemory, -⟩ := hr r hrun
          cases hfailed.symm.trans hmemory
      · obtain ⟨m, d', -, -, -, target, rest, -, -, hat, -⟩ := hr r hrun
        cases hphase.symm.trans hat

/-- An operation of a load that does not go well fails it. -/
theorem loadFailed_of_operate {fault : Option String} {v : Volume} {call : DirectoryCall}
    {opened : View} {faulted : Bool} {q : FileQuestion}
    {next : FileAnswer q → FileProg InMemoryTenantDirectory}
    (h : LoadingAt c start ⟨call, .loading (.ask q next), false, opened, faulted⟩)
    (htarget : v.target = start) (hnot : ¬ (raised fault = none ∧ AnswersLoad c v.target q)) :
    ∃ e, next (v.handle q fault).1 = .fail e := by
  have hraises : ∀ code, raised fault = some code → code ≠ "ENOENT" := fun code hraised =>
    of_decide_eq_true (Option.filter_eq_some_iff.mp hraised).2
  obtain ⟨-, ⟨-, hphase⟩ | ⟨hphase, text, hfile, hsize⟩ | ⟨d, hphase, -⟩⟩ := h
  · obtain ⟨rfl, hnext⟩ := Prog.ask.inj (Phase.loading.inj hphase)
    obtain rfl := eq_of_heq hnext
    rcases hraised : raised fault with _ | code
    · simp only [Volume.handle, hraised]
      rw [and_iff_right hraised] at hnot
      cases hkind : v.target with
      | absent => exact absurd (.inl hkind) hnot
      | symlink => exact ⟨_, rfl⟩
      | other => exact ⟨_, rfl⟩
      | file text =>
        have hlarge : c.maxBytes < text.bytes := by
          by_contra hsmall
          exact hnot (.inr ⟨text, hkind, Nat.not_lt.mp hsmall⟩)
        exact ⟨_, if_pos hlarge⟩
    · simp only [Volume.handle, hraised]
      exact ⟨_, if_neg (hraises code hraised)⟩
  · obtain ⟨rfl, hnext⟩ := Prog.ask.inj (Phase.loading.inj hphase)
    obtain rfl := eq_of_heq hnext
    rcases hraised : raised fault with _ | code
    · simp only [Volume.handle, hraised]
      rw [and_iff_right hraised] at hnot
      rw [htarget, hfile] at hnot ⊢
      rcases hparse : parseFile text with e | d
      · exact ⟨e, congrArg Prog.ofExcept hparse⟩
      · exact absurd (.inr ⟨text, rfl, d, hparse⟩) hnot
    · simp only [Volume.handle, hraised]
      exact ⟨_, if_neg (hraises code hraised)⟩
  · cases Phase.loading.inj hphase

/-- An event that does not meet the condition breaks the promise on the spot. -/
theorem not_durable_of_not_meets {e : FileEvent} (h : FileInv c start s) (hnot : ¬ FileMeets c s e)
    (hstep : fileStep c s e = some t) : ¬ Durable c start t := by
  intro hdurable
  cases e with
  | arrive call => exact hnot trivial
  | start => exact hnot trivial
  | resume => exact hnot trivial
  | operate fault =>
    refine hnot fun r hrun hasked => ?_
    obtain ⟨call, phase, answered, opened, faulted⟩ := r
    obtain rfl : answered = false := hasked
    obtain ⟨hm, hl, ht, hr⟩ | ⟨d₀, d, hs, hb, hd, hl, hi, hr⟩ := h
    · refine ⟨fun q next hphase => ?_, fun before next d hphase => ?_⟩
      · obtain rfl : phase = .loading (.ask q next) := hphase
        by_contra hbad
        obtain ⟨e, he⟩ := loadFailed_of_operate (hr _ hrun) ht hbad
        simp only [fileStep, Server.operate, hrun, he, Option.some.injEq] at hstep
        have halive := hdurable.alive
        rw [← hstep, Server.loadFailed, hm] at halive
        cases halive
      · obtain rfl : phase = _ := hphase
        obtain ⟨-, ⟨-, hat⟩ | ⟨hat, -⟩ | ⟨d, hat, -⟩⟩ := hr _ hrun <;> cases hat
    · obtain ⟨m, d', hcall, happly, hmemory, target, rest, hopened, htarget, hphase, -, hpub⟩ := hr _ hrun
      obtain rfl : phase = _ := hphase
      refine ⟨fun q next hat => ?_, fun before next d₁ hat hnone hmem => ?_⟩
      · cases hat
      · obtain ⟨-, rfl⟩ := Phase.persisting.inj hat
        obtain rfl : d' = d₁ := FileMemory.loaded.inj (hmemory.symm.trans hmem)
        subst hnone
        have htemp : s.volume.temp = some (serialized c d'.snapshot) := hpub.1.2 rfl
        simp only [fileStep, Server.operate, hrun, Volume.handle, Volume.act, htemp,
          Option.some.injEq] at hstep
        -- the file is the new one, so it loads
        have hload : ∃ d₂, reload c (.file (serialized c d'.snapshot)) = .ok d₂ := by
          obtain hold | ⟨m', -, hnew⟩ := hdurable.durable d₀ hs
          · exact ⟨_, hstep ▸ hold⟩
          · exact ⟨_, hstep ▸ hnew⟩
        obtain ⟨d₂, hd₂⟩ := hload
        obtain ⟨-, hsame, -, haccepts⟩ := reload_published.mp hd₂
        rwa [← hsame]

/-- An instance over a file. -/
def opened (target : Target) : Server := { volume := ⟨target, none⟩ }

theorem fileInv_opened : FileInv c start (opened start) := by
  refine .inl ⟨rfl, rfl, rfl, fun r hr => ?_⟩
  cases show (none : Option RunningCall) = some r from hr

/-- In every run of an instance, every state is atomic and durable exactly when no operation of a load
    raises an error or finds what does not load, and no rename publishes a directory whose snapshot the
    loader refuses. -/
theorem durable_iff (c : FileSettings) (start : Target) (events : List FileEvent) :
    Everywhere (fileStep c) (Durable c start) (opened start) events ↔
      Along (fileStep c) (FileMeets c) (opened start) events :=
  everywhere_iff_along (I := FileInv c start) (fun _ _ _ h hmeets hstep => fileInv_step h hmeets hstep)
    (fun _ h => durable_of_inv h) (fun _ _ _ h hnot hstep => not_durable_of_not_meets h hnot hstep)
    fileInv_opened events

/-- A `snapshot` that was rejected though nothing was raised in it. -/
def SettledCall.keptOut : SettledCall → Bool
  | { call := .snapshot, result := .error _, faulted := false, .. } => true
  | _ => false

/-- The first `lstat` raises an error; the second call is not served, though nothing is wrong any more. -/
theorem failed_load_is_kept :
    ¬ Everywhere (fileStep ⟨1024, by decide, fun _ => 0⟩) (Durable ⟨1024, by decide, fun _ => 0⟩ .absent)
      (opened .absent)
      [.arrive .snapshot, .start, .operate (some "EMFILE"), .resume, .arrive .snapshot, .start] := by
  refine not_everywhere (fun s => s.log.any SettledCall.keptOut) rfl ?_
  intro s hbad hdurable
  obtain ⟨r, hr, hrejected⟩ := List.any_eq_true.mp hbad
  unfold SettledCall.keptOut at hrejected
  split at hrejected
  · obtain ⟨d, -, hresult⟩ := hdurable.served _ hr rfl
    cases hresult
  · cases hrejected

end Remembra.Tenant
