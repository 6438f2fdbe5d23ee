import Mathlib.Data.Finset.Basic
import Remembra.Lib.Fs
import Remembra.Lib.Indexed
import Remembra.Lib.Transition
import Remembra.Lock.Provider

/-! The file-backed lock provider: a lease is a JSON file, the exclusive create arbitrates, and a
    stale or unreadable lease is reclaimed by unlinking it. Any number of provider instances with an
    owner each share the directory and the clock; their calls are threads, and every file-system
    operation of `acquire`, `renew` and `release` is one atomic step of its thread.

    The reclaimer decides on what it read and unlinks by name, `renew` and `release` overwrite and
    unlink by name too, and a lease is created empty and filled in later, so each of these can hit a
    file that is no longer the one it was decided on: two reclaimers of one stale lease both end up
    with a handle (`two_reclaimers_both_acquire`). As long as no such step hits a file that carries
    another live lease or is still being filled in (`Undisturbed`), a live handle's file holds
    exactly its lease (`Inv`) and no two owners hold a key (`exclusive_of_undisturbed`). -/

namespace Remembra.Lock.File
open Transition

/-- The fields of a lease file that are read back. -/
structure LeasePayload where
  owner : String
  expiresAt : ℤ
  deriving DecidableEq

/-- What the bytes of a lease file parse to. A file just created is empty, which does not parse. -/
inductive Content where
  | corrupt
  | lease (payload : LeasePayload)
  deriving DecidableEq

abbrev Dir := Fs String Content

/-- What the provider's `read` returns for a file that exists. -/
structure Existing where
  owner : String
  expiresAt : ℤ
  corrupt : Bool

def readLease (fs : Dir) (file : String) : Option Existing :=
  (fs.read file).map fun
    | .corrupt => ⟨"unknown", 0, true⟩
    | .lease payload => ⟨payload.owner, payload.expiresAt, false⟩

/-- A handle. `lease` is the expiry in the payload it wrote last, `released` whether a `release()` of
    it has returned true; the provider keeps neither. -/
structure Handle where
  info : LockInfo
  leaseMs : ℤ
  lease : ℤ
  released : Bool

inductive Outcome where
  | acquired (h : ℕ)
  | refused (error : LockTimeout)
  | renewed (ok : Bool)
  | released (ok : Bool)

/-- Where a thread is: between two calls, or at the next atomic step of one. Handles are named by
    their position among the handles returned. -/
inductive Pc where
  | ready (last : Option Outcome)
  /-- Top of the loop of `acquire`: the payload is made up from the clock. -/
  | loop (c : AcquireCall) (spins : ℕ)
  | create (c : AcquireCall) (spins : ℕ) (expiresAt : ℤ)
  /-- The file exists, empty, and its content is still to be written through the descriptor. -/
  | write (c : AcquireCall) (expiresAt : ℤ) (inode : ℕ)
  | read (c : AcquireCall) (spins : ℕ)
  | unlink (c : AcquireCall) (spins : ℕ)
  | asleep (c : AcquireCall) (spins : ℕ) (wake : ℤ)
  | renewRead (h : ℕ) (expiresAt : ℤ)
  | renewWrite (h : ℕ) (expiresAt : ℤ)
  | releaseRead (h : ℕ)
  | releaseUnlink (h : ℕ)

/-- All parties: the clock, the lease directory, the threads, the `heldFiles` of each provider
    instance (named by its owner) and every handle returned so far. -/
structure State where
  now : ℤ
  fs : Dir
  pc : ℕ → Pc
  held : String → Finset String
  handles : List Handle

def init (now : ℤ) : State := ⟨now, .empty .corrupt, fun _ => .ready none, fun _ => ∅, []⟩

inductive Action where
  | acquire (t : ℕ) (owner key : String) (options : LockOptions)
  | renew (t h : ℕ) (leaseMs : Option ℤ)
  | release (t h : ℕ)
  /-- Thread `t` takes its next atomic step. -/
  | exec (t : ℕ)
  | advance (ms : ℕ)

def State.goto (s : State) (t : ℕ) (pc : Pc) : State :=
  { s with pc := Function.update s.pc t pc }

def State.drop (s : State) (owner file : String) : State :=
  { s with held := Function.update s.held owner ((s.held owner).erase file) }

/-- Round the loop again, or give up after too many reclaims. -/
def retry (c : AcquireCall) (spins : ℕ) : Pc :=
  if spins + 1 > maxAcquireSpins then .ready (some (.refused (.contention c.key)))
  else .loop c (spins + 1)

/-- What `acquire` does after `read`: reclaim, retry, refuse or sleep. -/
def afterRead (now : ℤ) (c : AcquireCall) (spins : ℕ) : Option Existing → Pc
  | none => retry c spins
  | some existing =>
    if existing.corrupt ∨ existing.expiresAt ≤ now then .unlink c spins
    else if now ≥ c.deadline then .ready (some (.refused (.heldBy c.key existing.owner)))
    else .asleep c spins (now + sleepMs c.pollMs c.deadline now)

section Step
variable (file : String → String)

/-- The next atomic step of thread `t`; `file` is the path of a key's lease. -/
def exec (s : State) (t : ℕ) : Option State :=
  match s.pc t with
  | .ready _ => none
  | .loop c spins => some (s.goto t (.create c spins (s.now + c.leaseMs)))
  | .create c spins expiresAt =>
    match s.fs.createExcl (file c.key) .corrupt with
    | none => some (s.goto t (.read c spins))
    | some (fs, inode) => some ({ s with fs := fs }.goto t (.write c expiresAt inode))
  | .write c expiresAt inode =>
    let handle : Handle := ⟨⟨c.key, c.owner, s.now + c.leaseMs⟩, c.leaseMs, expiresAt, false⟩
    some ({ s with
      fs := s.fs.writeTo inode (.lease ⟨c.owner, expiresAt⟩)
      held := Function.update s.held c.owner (insert (file c.key) (s.held c.owner))
      handles := s.handles ++ [handle] }.goto t (.ready (some (.acquired s.handles.length))))
  | .read c spins =>
    some (s.goto t (afterRead s.now c spins (readLease s.fs (file c.key))))
  | .unlink c spins =>
    some ({ s with fs := s.fs.unlink (file c.key) }.goto t (retry c spins))
  | .asleep c spins wake => if wake ≤ s.now then some (s.goto t (.loop c spins)) else none
  | .renewRead h expiresAt =>
    (s.handles[h]?).map fun hd =>
      if ((readLease s.fs (file hd.info.key)).map Existing.owner) = some hd.info.owner then
        s.goto t (.renewWrite h expiresAt)
      else (s.drop hd.info.owner (file hd.info.key)).goto t (.ready (some (.renewed false)))
  | .renewWrite h expiresAt =>
    (s.handles[h]?).map fun hd =>
      { s with
        fs := s.fs.overwrite (file hd.info.key) (.lease ⟨hd.info.owner, expiresAt⟩)
        handles := s.handles.modify h fun hd : Handle => { hd with lease := expiresAt } }.goto t
          (.ready (some (.renewed true)))
  | .releaseRead h =>
    (s.handles[h]?).map fun hd =>
      if ((readLease s.fs (file hd.info.key)).map Existing.owner) = some hd.info.owner then
        s.goto t (.releaseUnlink h)
      else s.goto t (.ready (some (.released false)))
  | .releaseUnlink h =>
    (s.handles[h]?).map fun hd =>
      if (s.fs.dir (file hd.info.key)).isSome then
        { s with
          fs := s.fs.unlink (file hd.info.key)
          handles := s.handles.modify h fun hd : Handle => { hd with released := true } }.goto t
            (.ready (some (.released true)))
      -- the file is gone: `unlink` throws
      else s.goto t (.ready (some (.released false)))

def Pc.isReady : Pc → Bool
  | .ready _ => true
  | _ => false

def step (s : State) : Action → Option State
  | .acquire t owner key options =>
    if (s.pc t).isReady then
      some (s.goto t (.loop (.start owner s.now key { options with owner := some owner }) 0))
    else none
  | .renew t h leaseMs =>
    match s.handles[h]? with
    | none => none
    | some hd =>
      if (s.pc t).isReady then
        some (s.goto t
          (if file hd.info.key ∈ s.held hd.info.owner
            then .renewRead h (s.now + leaseMs.getD hd.leaseMs)
            else .ready (some (.renewed false))))
      else none
  | .release t h =>
    match s.handles[h]? with
    | none => none
    | some hd =>
      if (s.pc t).isReady then
        some ((s.drop hd.info.owner (file hd.info.key)).goto t (.releaseRead h))
      else none
  | .exec t => exec file s t
  | .advance ms => some { s with now := s.now + ms }

end Step

/-! ### Mutual exclusion -/

/-- The handle was not released and its lease, as of its last payload, has not expired. -/
def Handle.Live (now : ℤ) (h : Handle) : Prop := h.released = false ∧ now < h.lease

instance (now : ℤ) (h : Handle) : Decidable (h.Live now) := inferInstanceAs (Decidable (_ ∧ _))

/-- No two owners have live handles of one key. -/
def MutualExclusion (s : State) : Prop :=
  ∀ (i j : ℕ) (h h' : Handle), s.handles[i]? = some h → s.handles[j]? = some h' →
    h.info.key = h'.info.key → h.Live s.now → h'.Live s.now → h.info.owner = h'.info.owner

/-- A stale lease and two reclaimers. Both read it as expired; `B` unlinks it, creates its own lease
    and returns; `C` then unlinks the lease of `B` and creates one too. -/
def twoReclaimers : List Action :=
  let ms : LockOptions := { leaseMs := some 1000 }
  -- `A` acquires and its lease runs out
  [.acquire 0 "A" "k" ms, .exec 0, .exec 0, .exec 0, .advance 1001,
   -- `B` and `C` find the file and read it
   .acquire 1 "B" "k" ms, .exec 1, .exec 1, .exec 1,
   .acquire 2 "C" "k" ms, .exec 2, .exec 2, .exec 2,
   -- unlink, loop, create, write: first all of `B`, then all of `C`
   .exec 1, .exec 1, .exec 1, .exec 1,
   .exec 2, .exec 2, .exec 2, .exec 2]

theorem two_reclaimers_both_acquire :
    ∃ s b c, run (step id) (init 0) twoReclaimers = some s ∧
      s.handles[1]? = some b ∧ s.handles[2]? = some c ∧
      b.info.owner = "B" ∧ c.info.owner = "C" ∧ b.Live s.now ∧ c.Live s.now ∧
      ¬ MutualExclusion s := by
  refine ⟨_, _, _, rfl, rfl, rfl, rfl, rfl, by decide, by decide, fun h => ?_⟩
  exact absurd (h 1 2 _ _ rfl rfl rfl (by decide) (by decide)) (by decide)

/-! ### Exclusion while no step hits another's file -/

section Exclusion
variable (file : String → String)

/-- Nothing but the handle at position `self` has a live lease on the file at `path`, and no thread
    has created that file without having filled it in yet. -/
def Quiet (s : State) (path : String) (self : Option ℕ) : Prop :=
  (∀ (i : ℕ) (h : Handle), s.handles[i]? = some h → file h.info.key = path → some i ≠ self →
    ¬ h.Live s.now) ∧
  ∀ (t : ℕ) (c : AcquireCall) (e : ℤ) (i : ℕ), s.pc t = .write c e i → s.fs.dir path ≠ some i

/-- The step unlinks or overwrites no lease file that another handle still holds, or that another
    `acquire` has created and not filled in yet. -/
def Undisturbed (s : State) : Action → Prop
  | .exec t =>
    match s.pc t with
    | .unlink c _ => Quiet file s (file c.key) none
    | .renewWrite h _ | .releaseUnlink h =>
      ∀ hd, s.handles[h]? = some hd → Quiet file s (file hd.info.key) (some h)
    | _ => True
  | _ => True

/-- A lease being filled in is its thread's own empty file, and a live handle's file holds exactly
    its lease. -/
structure Inv (s : State) : Prop where
  unfilled : ∀ {t : ℕ} {c : AcquireCall} {e : ℤ} {i : ℕ}, s.pc t = .write c e i →
    s.fs.dir (file c.key) = some i ∧ s.fs.read (file c.key) = some .corrupt
  distinct : ∀ {t t' : ℕ} {c c' : AcquireCall} {e e' : ℤ} {i : ℕ},
    s.pc t = .write c e i → s.pc t' = .write c' e' i → t = t'
  live : ∀ {i : ℕ} {h : Handle}, s.handles[i]? = some h → h.Live s.now →
    s.fs.read (file h.info.key) = some (.lease ⟨h.info.owner, h.lease⟩)

/-- What one step can do, by what it changes besides the thread's own place. -/
inductive Effect (s : State) (a : Action) : State → Prop where
  /-- Nothing: the thread only moves, and no file of its own is waiting to be filled in. -/
  | move {t : ℕ} {pc : Pc} (held : String → Finset String)
      (hfrom : ∀ c e i, s.pc t ≠ .write c e i) (hto : ∀ c e i, pc ≠ .write c e i) :
      Effect s a ({ s with held := held }.goto t pc)
  | tick (ms : ℕ) : Effect s a { s with now := s.now + ms }
  | create {t : ℕ} {c : AcquireCall} {e : ℤ} (hfrom : ∀ c e i, s.pc t ≠ .write c e i)
      (hfree : s.fs.dir (file c.key) = none) :
      Effect s a
        ({ s with fs := s.fs.create (file c.key) .corrupt }.goto t (.write c e s.fs.next))
  | fill {t : ℕ} {c : AcquireCall} {e : ℤ} {i : ℕ} {held : String → Finset String} {pc : Pc}
      {h : Handle} (hfrom : s.pc t = .write c e i) (hto : ∀ c e i, pc ≠ .write c e i)
      (hkey : h.info.key = c.key) (howner : h.info.owner = c.owner) (hlease : h.lease = e) :
      Effect s a ({ s with
        fs := s.fs.writeTo i (.lease ⟨c.owner, e⟩), held := held,
        handles := s.handles ++ [h] }.goto t pc)
  | reclaim {t : ℕ} {pc : Pc} {key : String}
      (hfrom : ∀ c e i, s.pc t ≠ .write c e i) (hto : ∀ c e i, pc ≠ .write c e i)
      (hquiet : Undisturbed file s a → Quiet file s (file key) none) :
      Effect s a ({ s with fs := s.fs.unlink (file key) }.goto t pc)
  | renew {t : ℕ} {pc : Pc} {k : ℕ} {hd : Handle} {e : ℤ}
      (hfrom : ∀ c e i, s.pc t ≠ .write c e i) (hto : ∀ c e i, pc ≠ .write c e i)
      (hk : s.handles[k]? = some hd)
      (hquiet : Undisturbed file s a → Quiet file s (file hd.info.key) (some k)) :
      Effect s a ({ s with
        fs := s.fs.overwrite (file hd.info.key) (.lease ⟨hd.info.owner, e⟩)
        handles := s.handles.modify k fun hd : Handle => { hd with lease := e } }.goto t pc)
  | release {t : ℕ} {pc : Pc} {k : ℕ} {hd : Handle}
      (hfrom : ∀ c e i, s.pc t ≠ .write c e i) (hto : ∀ c e i, pc ≠ .write c e i)
      (hk : s.handles[k]? = some hd)
      (hquiet : Undisturbed file s a → Quiet file s (file hd.info.key) (some k)) :
      Effect s a ({ s with
        fs := s.fs.unlink (file hd.info.key)
        handles := s.handles.modify k fun hd : Handle => { hd with released := true } }.goto t pc)

theorem retry_ne_write (c : AcquireCall) (spins : ℕ) (c' : AcquireCall) (e : ℤ) (i : ℕ) :
    retry c spins ≠ .write c' e i := by
  unfold retry
  split <;> simp

theorem afterRead_ne_write (now : ℤ) (c : AcquireCall) (spins : ℕ) (x : Option Existing)
    (c' : AcquireCall) (e : ℤ) (i : ℕ) : afterRead now c spins x ≠ .write c' e i := by
  cases x with
  | none => exact retry_ne_write c spins c' e i
  | some existing =>
    simp only [afterRead]
    split
    · simp
    · split <;> simp

theorem ne_write_of_isReady {pc : Pc} (h : pc.isReady = true) (c : AcquireCall) (e : ℤ) (i : ℕ) :
    pc ≠ .write c e i := by
  rintro rfl
  cases h

variable {file}

theorem exec_effect {s s' : State} {t : ℕ} (h : exec file s t = some s') :
    Effect file s (.exec t) s' := by
  unfold exec at h
  split at h
  · cases h
  · rename_i c spins hpc
    cases h
    exact .move s.held (by simp [hpc]) (by simp)
  · rename_i c spins e hpc
    split at h
    · cases h
      exact .move s.held (by simp [hpc]) (by simp)
    · rename_i fs inode hcreate
      obtain ⟨hfree, rfl, rfl⟩ := Fs.createExcl_some hcreate
      cases h
      exact .create (t := t) (by simp [hpc]) hfree
  · rename_i c e inode hpc
    cases h
    exact .fill hpc (by simp) rfl rfl rfl
  · rename_i c spins hpc
    cases h
    exact .move s.held (by simp [hpc]) (afterRead_ne_write _ _ _ _)
  · rename_i c spins hpc
    cases h
    exact .reclaim (by simp [hpc]) (retry_ne_write _ _) (fun hq => by simpa [Undisturbed, hpc] using hq)
  · rename_i c spins wake hpc
    split at h
    · cases h
      exact .move s.held (by simp [hpc]) (by simp)
    · cases h
  · rename_i k e hpc
    obtain ⟨hd, -, rfl⟩ := Option.map_eq_some_iff.mp h
    split
    · exact .move s.held (by simp [hpc]) (by simp)
    · exact .move _ (by simp [hpc]) (by simp)
  · rename_i k e hpc
    obtain ⟨hd, hk, rfl⟩ := Option.map_eq_some_iff.mp h
    refine .renew (by simp [hpc]) (by simp) hk fun hq => ?_
    simp only [Undisturbed, hpc] at hq
    exact hq hd hk
  · rename_i k hpc
    obtain ⟨hd, -, rfl⟩ := Option.map_eq_some_iff.mp h
    split <;> exact .move s.held (by simp [hpc]) (by simp)
  · rename_i k hpc
    obtain ⟨hd, hk, rfl⟩ := Option.map_eq_some_iff.mp h
    split
    · refine .release (by simp [hpc]) (by simp) hk fun hq => ?_
      simp only [Undisturbed, hpc] at hq
      exact hq hd hk
    · exact .move s.held (by simp [hpc]) (by simp)

theorem step_effect {s s' : State} {a : Action} (h : step file s a = some s') :
    Effect file s a s' := by
  cases a with
  | acquire t owner key options =>
    simp only [step] at h
    split at h
    · rename_i hready
      cases h
      exact .move s.held (ne_write_of_isReady hready) (by simp)
    · cases h
  | renew t k leaseMs =>
    simp only [step] at h
    split at h
    · cases h
    · split at h
      · rename_i hready
        cases h
        refine .move s.held (ne_write_of_isReady hready) ?_
        split <;> simp
      · cases h
  | release t k =>
    simp only [step] at h
    split at h
    · cases h
    · split at h
      · rename_i hready
        cases h
        exact .move _ (ne_write_of_isReady hready) (by simp)
      · cases h
  | exec t => exact exec_effect h
  | advance ms =>
    cases h
    exact .tick ms

/-! ### The invariant over one step -/

theorem inv_init (now : ℤ) : Inv file (init now) := by
  constructor
  · intro t c e i h
    simp [init] at h
  · intro t t' c c' e e' i h
    simp [init] at h
  · intro i h hi
    simp [init] at hi

theorem goto_pc_self (s : State) (t : ℕ) (pc : Pc) : (s.goto t pc).pc t = pc :=
  Function.update_self ..

theorem goto_pc_ne (s : State) {t u : ℕ} (h : u ≠ t) (pc : Pc) : (s.goto t pc).pc u = s.pc u :=
  Function.update_of_ne h ..

/-- A thread that fills a lease in after a step to a place where it does not was not the one that
    moved. -/
theorem ne_of_write {s : State} {t u : ℕ} {pc : Pc} {c : AcquireCall} {e : ℤ} {i : ℕ}
    (hto : ∀ c e i, pc ≠ .write c e i) (h : (s.goto t pc).pc u = .write c e i) :
    u ≠ t ∧ s.pc u = .write c e i := by
  by_cases hu : u = t
  · subst hu
    rw [goto_pc_self] at h
    exact absurd h (hto c e i)
  · rw [goto_pc_ne s hu] at h
    exact ⟨hu, h⟩

/-- The file of a live handle is none that is being filled in. -/
theorem Inv.live_ne_unfilled {s : State} (hI : Inv file s) {t : ℕ} {c : AcquireCall} {e : ℤ} {i : ℕ}
    {k : ℕ} {h : Handle} (hw : s.pc t = .write c e i) (hk : s.handles[k]? = some h)
    (hl : h.Live s.now) : file h.info.key ≠ file c.key := by
  intro heq
  have hread := hI.live hk hl
  rw [heq, (hI.unfilled hw).2] at hread
  cases hread

/-- Two threads never fill in the same file. -/
theorem Inv.unfilled_ne {s : State} (hI : Inv file s) {t u : ℕ} {c c' : AcquireCall} {e e' : ℤ}
    {i i' : ℕ} (hw : s.pc t = .write c e i) (hw' : s.pc u = .write c' e' i') (h : u ≠ t) :
    file c'.key ≠ file c.key := by
  intro heq
  have hdir := (hI.unfilled hw').1
  rw [heq, (hI.unfilled hw).1, Option.some.injEq] at hdir
  subst hdir
  exact h (hI.distinct hw' hw)

/-- The step of a thread that is not filling a lease in keeps the facts about those that are, when
    it leaves the files they fill in alone. -/
theorem Inv.of_leaves {s s' : State} (hI : Inv file s) {t : ℕ} {pc : Pc}
    (hpc : s'.pc = Function.update s.pc t pc) (hto : ∀ c e i, pc ≠ .write c e i)
    (hfs : ∀ {u : ℕ} {c : AcquireCall} {e : ℤ} {i : ℕ}, s.pc u = .write c e i →
      s'.fs.dir (file c.key) = s.fs.dir (file c.key) ∧
      s'.fs.read (file c.key) = s.fs.read (file c.key))
    (hlive : ∀ {i : ℕ} {h : Handle}, s'.handles[i]? = some h → h.Live s'.now →
      s'.fs.read (file h.info.key) = some (.lease ⟨h.info.owner, h.lease⟩)) : Inv file s' := by
  have hold : ∀ {u : ℕ} {c : AcquireCall} {e : ℤ} {i : ℕ}, s'.pc u = .write c e i →
      s.pc u = .write c e i := by
    intro u c e i hw
    rw [hpc] at hw
    exact (ne_of_write (s := s) hto hw).2
  constructor
  · intro u c e i hw
    rw [(hfs (hold hw)).1, (hfs (hold hw)).2]
    exact hI.unfilled (hold hw)
  · intro u u' c c' e e' i hw hw'
    exact hI.distinct (hold hw) (hold hw')
  · exact hlive

/-- Whoever fills a lease in is at another file than a quiet one. -/
theorem Inv.ne_of_quiet {s : State} (hI : Inv file s) {path : String} {self : Option ℕ}
    (hq : Quiet file s path self) {u : ℕ} {c : AcquireCall} {e : ℤ} {i : ℕ}
    (hw : s.pc u = .write c e i) : file c.key ≠ path := by
  intro heq
  refine hq.2 u c e i hw ?_
  rw [← heq]
  exact (hI.unfilled hw).1

/-- An exclusive create: nobody has a live lease on a file that does not exist, and nobody is
    filling it in. -/
theorem Inv.create {s : State} (hI : Inv file s) {t : ℕ} {c : AcquireCall} {e : ℤ}
    (hfree : s.fs.dir (file c.key) = none) :
    Inv file ({ s with fs := s.fs.create (file c.key) .corrupt }.goto t
      (.write c e s.fs.next)) := by
  have hnew : ∀ {u : ℕ} {c' : AcquireCall} {e' : ℤ} {i : ℕ}, s.pc u = .write c' e' i →
      file c'.key ≠ file c.key ∧ i ≠ s.fs.next := by
    intro u c' e' i hw
    have hdir := (hI.unfilled hw).1
    refine ⟨fun heq => ?_, Nat.ne_of_lt (s.fs.bounded _ _ hdir)⟩
    rw [heq, hfree] at hdir
    cases hdir
  constructor
  · intro u c' e' i hw
    by_cases hu : u = t
    · subst hu
      rw [goto_pc_self] at hw
      cases hw
      exact ⟨Fs.create_dir_self, Fs.read_create_self⟩
    · rw [goto_pc_ne _ hu] at hw
      have hne := (hnew hw).1
      change (s.fs.create _ _).dir _ = _ ∧ (s.fs.create _ _).read _ = _
      rw [Fs.create_dir_ne hne, Fs.read_create_ne hne]
      exact hI.unfilled hw
  · intro u u' c' c'' e' e'' i hw hw'
    by_cases hu : u = t <;> by_cases hu' : u' = t
    · rw [hu, hu']
    · subst hu
      rw [goto_pc_self] at hw
      rw [goto_pc_ne _ hu'] at hw'
      cases hw
      exact absurd rfl (hnew hw').2
    · subst hu'
      rw [goto_pc_self] at hw'
      rw [goto_pc_ne _ hu] at hw
      cases hw'
      exact absurd rfl (hnew hw).2
    · rw [goto_pc_ne _ hu] at hw
      rw [goto_pc_ne _ hu'] at hw'
      exact hI.distinct hw hw'
  · intro i hd hi hl
    have hread := hI.live hi hl
    have hne : file hd.info.key ≠ file c.key := by
      intro heq
      rw [heq, Fs.read, hfree] at hread
      cases hread
    exact (Fs.read_create_ne hne).trans hread

/-- The write through the descriptor: it shows under the created name only, where it is the lease of
    the new handle. -/
theorem Inv.fill {s : State} (hI : Inv file s) {t : ℕ} {c : AcquireCall} {e : ℤ} {i : ℕ}
    {held : String → Finset String} {pc : Pc} {hd : Handle} (hfrom : s.pc t = .write c e i)
    (hto : ∀ c e i, pc ≠ .write c e i) (hkey : hd.info.key = c.key)
    (howner : hd.info.owner = c.owner) (hlease : hd.lease = e) :
    Inv file ({ s with
      fs := s.fs.writeTo i (.lease ⟨c.owner, e⟩), held := held,
      handles := s.handles ++ [hd] }.goto t pc) := by
  have hdir := (hI.unfilled hfrom).1
  have hother : ∀ {path : String}, path ≠ file c.key →
      (s.fs.writeTo i (.lease ⟨c.owner, e⟩)).read path = s.fs.read path := by
    intro path hne
    exact Fs.read_writeTo_ne fun hpath => hne (s.fs.single _ _ _ hpath hdir)
  constructor
  · intro u c' e' i' hw
    obtain ⟨hu, hw⟩ := ne_of_write hto hw
    change s.fs.dir _ = _ ∧ (s.fs.writeTo _ _).read _ = _
    rw [hother (hI.unfilled_ne hfrom hw hu)]
    exact hI.unfilled hw
  · intro u u' c' c'' e' e'' i' hw hw'
    exact hI.distinct (ne_of_write hto hw).2 (ne_of_write hto hw').2
  · intro k h' hk hl
    change (s.handles ++ [hd])[k]? = some h' at hk
    rcases Indexed.getElem?_concat.mp hk with hk | ⟨-, rfl⟩
    · exact (hother (hI.live_ne_unfilled hfrom hk hl)).trans (hI.live hk hl)
    · rw [hkey, howner, hlease]
      exact Fs.read_writeTo_self hdir

theorem inv_step (s : State) (a : Action) (s' : State) (hI : Inv file s)
    (hok : Undisturbed file s a) (h : step file s a = some s') : Inv file s' := by
  cases step_effect h with
  | move held hfrom hto => exact hI.of_leaves rfl hto (fun _ => ⟨rfl, rfl⟩) hI.live
  | tick ms =>
    refine ⟨hI.unfilled, hI.distinct, fun hi hl => hI.live hi ⟨hl.1, ?_⟩⟩
    have : s.now + ms < _ := hl.2
    omega
  | create hfrom hfree => exact hI.create hfree
  | fill hfrom hto hkey howner hlease => exact hI.fill hfrom hto hkey howner hlease
  | @reclaim t pc key hfrom hto hquiet =>
    have hq := hquiet hok
    refine hI.of_leaves rfl hto (fun hw => ?_) (fun {i hd} hi hl => ?_)
    · exact ⟨Fs.unlink_dir_ne (hI.ne_of_quiet hq hw), Fs.read_unlink_ne (hI.ne_of_quiet hq hw)⟩
    · have hne : file hd.info.key ≠ file key := fun heq => hq.1 i hd hi heq (by simp) hl
      exact (Fs.read_unlink_ne hne).trans (hI.live hi hl)
  | @renew t pc k hd e hfrom hto hk hquiet =>
    have hq := hquiet hok
    refine hI.of_leaves rfl hto (fun hw => ?_) (fun {i h'} hi hl => ?_)
    · exact ⟨Fs.overwrite_dir_ne (hI.ne_of_quiet hq hw),
        Fs.read_overwrite_ne (hI.ne_of_quiet hq hw)⟩
    · rcases Indexed.getElem?_modify_some hi with ⟨hik, hi⟩ | ⟨rfl, h'', hk', rfl⟩
      · have hne : file h'.info.key ≠ file hd.info.key := fun heq =>
          hq.1 i h' hi heq (by simpa using hik) hl
        exact (Fs.read_overwrite_ne hne).trans (hI.live hi hl)
      · obtain rfl : hd = h'' := Option.some.inj (hk.symm.trans hk')
        exact Fs.read_overwrite_self
  | @release t pc k hd hfrom hto hk hquiet =>
    have hq := hquiet hok
    refine hI.of_leaves rfl hto (fun hw => ?_) (fun {i h'} hi hl => ?_)
    · exact ⟨Fs.unlink_dir_ne (hI.ne_of_quiet hq hw), Fs.read_unlink_ne (hI.ne_of_quiet hq hw)⟩
    · rcases Indexed.getElem?_modify_some hi with ⟨hik, hi⟩ | ⟨rfl, h'', hk', rfl⟩
      · have hne : file h'.info.key ≠ file hd.info.key := fun heq =>
          hq.1 i h' hi heq (by simpa using hik) hl
        exact (Fs.read_unlink_ne hne).trans (hI.live hi hl)
      · -- a released handle is not live
        cases hl.1

/-- Two live handles of one key read the same lease file, so they have one owner. -/
theorem exclusive_of_inv (s : State) (hI : Inv file s) : MutualExclusion s := by
  intro i j h h' hi hj hk hl hl'
  have hread := hI.live hi hl
  rw [hk, hI.live hj hl', Option.some.injEq, Content.lease.injEq, LeasePayload.mk.injEq] at hread
  exact hread.1.symm

end Exclusion

/-- In every run in which no step unlinks or overwrites a lease file that another handle still holds
    or that another `acquire` has yet to fill in, no two owners hold one key in any state. -/
theorem exclusive_of_undisturbed (file : String → String) (now : ℤ) (actions : List Action)
    (h : Along (step file) (Undisturbed file) (init now) actions) :
    Everywhere (step file) MutualExclusion (init now) actions :=
  everywhere_of_along inv_step exclusive_of_inv actions (inv_init now) h

/-- `B` reclaims the lease `A` let expire, with nobody else at the file. -/
theorem exclusive_of_undisturbed_reclaim :
    Everywhere (step id) MutualExclusion (init 0)
      [.acquire 0 "A" "k" { leaseMs := some 1000 }, .exec 0, .exec 0, .exec 0, .advance 1001,
       .acquire 1 "B" "k" {}, .exec 1, .exec 1, .exec 1, .exec 1, .exec 1, .exec 1, .exec 1] := by
  refine exclusive_of_undisturbed id 0 _ ?_
  iterate 9 refine along_cons rfl trivial ?_
  refine along_cons rfl ⟨?_, ?_⟩ ?_
  · intro i h hi _ _ hl
    cases i with
    | zero =>
      obtain rfl := Option.some.inj hi
      exact absurd hl (by decide)
    | succ i => cases hi
  · intro u c e i hw
    by_cases h1 : u = 1
    · subst h1; cases hw
    · by_cases h0 : u = 0
      · subst h0; cases hw
      · simp [State.goto, init, h1, h0] at hw
  · iterate 3 refine along_cons rfl trivial ?_
    trivial

end Remembra.Lock.File
