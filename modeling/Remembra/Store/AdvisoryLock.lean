import Mathlib.Data.Int.Notation
import Mathlib.Data.List.Basic
import Remembra.Errors
import Remembra.Lib.Fs
import Remembra.Lib.Transition

/-! The memory store's advisory lock, `<root>/.remembra.lock`: `withLock`, `acquireFileLock`,
    `lockIsStale` and `releaseFileLock` of any number of store instances over one root, spread over
    processes that start and die. The in-process queue of an instance lets one call of it at a time
    near the lock, so an instance is one thread, and every file-system operation is one step of it.

    A waiter judges the lock file stale, then unlinks whatever has the name by then: two waiters that
    judged a dead holder's lock both enter (`two_stealers_both_inside`). As long as no waiter unlinks
    a live instance's young lock that it did not judge, and no overdue release unlinks a file that is
    not its own (`Fenced`), one instance is inside at a time and a release removes its own lock
    only. -/

namespace Remembra.Store.AdvisoryLock
open Transition

/-- The lock file: its `mtimeMs`, and the `pid` its JSON carries once it is written. -/
structure LockData where
  mtimeMs : ℤ
  pid : Option ℕ

abbrev Dir := Fs Unit LockData

/-- The parties: `home i` is the process of instance `i`, `pid p` the pid of process `p`. -/
structure Config where
  home : ℕ → ℕ
  pid : ℕ → ℕ
  lockStaleMs : ℤ
  lockTimeoutMs : ℤ

/-- Where an instance is. `inode` and `since` are the file it created and when; `seen` is the file a
    waiter looked at. The code keeps none of the three. -/
inductive Pc where
  | idle (failure : Option RemembraError)
  /-- `fs.open(file, "wx")` -/
  | opening (deadline : ℤ)
  /-- The file exists, empty; the pid is still to be written through the descriptor. -/
  | writing (inode : ℕ) (since : ℤ)
  /-- In `fn`. -/
  | inside (inode : ℕ) (since : ℤ)
  /-- `lockIsStale`, before its `fs.stat`. -/
  | statting (deadline : ℤ)
  | aging (deadline : ℤ) (seen : ℕ) (mtimeMs : ℤ)
  | reading (deadline : ℤ)
  /-- Before `process.kill(pid, 0)`. -/
  | probing (deadline : ℤ) (seen pid : ℕ)
  /-- Judged stale, or gone when it was looked at. -/
  | stealing (deadline : ℤ) (seen : Option ℕ)
  | polling (deadline : ℤ)
  | asleep (deadline wake : ℤ)
  /-- `lockHolderPid`, for the message of the timeout. -/
  | naming
  | releaseRead (inode : ℕ) (since : ℤ)
  | releaseUnlink (inode : ℕ) (since : ℤ)

structure State where
  now : ℤ
  fs : Dir
  pc : ℕ → Pc
  live : List ℕ
  dead : List ℕ

def init (now : ℤ) : State := ⟨now, .empty ⟨now, none⟩, fun _ => .idle none, [], []⟩

inductive Action where
  | start (p : ℕ)
  | die (p : ℕ)
  /-- Instance `i` calls `withLock`. -/
  | enter (i : ℕ)
  /-- Instance `i` takes its next step. -/
  | exec (i : ℕ)
  /-- A waiter goes to sleep for `15 + Math.floor(Math.random() * 20)` ms. -/
  | nap (i ms : ℕ)
  /-- `fn` of instance `i` returns or throws. -/
  | leave (i : ℕ)
  /-- Creating or writing the lock file fails. -/
  | fail (i : ℕ) (reason : String)
  | advance (ms : ℕ)

def State.goto (s : State) (i : ℕ) (pc : Pc) : State :=
  { s with pc := Function.update s.pc i pc }

def lockTimeout (lockTimeoutMs : ℤ) (holder : Option ℕ) : RemembraError :=
  ⟨.lockTimeout, "storage is locked by " ++
    (match holder with | some pid => "pid " ++ toString pid | none => "another process") ++
    " (waited " ++ toString lockTimeoutMs ++ "ms)"⟩

section Step
variable (C : Config)

/-- Some live process has the pid: `process.kill(pid, 0)` does not fail with `ESRCH`. -/
def alive (live : List ℕ) (pid : ℕ) : Bool := live.any fun p => C.pid p == pid

/-- The next step of instance `i`. -/
def exec (s : State) (i : ℕ) : Option State :=
  match s.pc i with
  | .idle _ | .inside .. => none
  | .opening deadline =>
    match s.fs.createExcl () ⟨s.now, none⟩ with
    | none => some (s.goto i (.statting deadline))
    | some (fs, inode) => some ({ s with fs := fs }.goto i (.writing inode s.now))
  | .writing inode since =>
    some ({ s with fs := s.fs.writeTo inode ⟨s.now, some (C.pid (C.home i))⟩ }.goto i
      (.inside inode since))
  | .statting deadline =>
    match s.fs.dir () with
    -- vanished between `EEXIST` and `stat`: also stale
    | none => some (s.goto i (.stealing deadline none))
    | some inode => some (s.goto i (.aging deadline inode (s.fs.data inode).mtimeMs))
  | .aging deadline seen mtimeMs =>
    if s.now - mtimeMs ≥ C.lockStaleMs then some (s.goto i (.stealing deadline (some seen)))
    else some (s.goto i (.reading deadline))
  | .reading deadline =>
    match s.fs.dir () with
    | none => some (s.goto i (.polling deadline))
    | some inode =>
      match (s.fs.data inode).pid with
      -- fresh but unwritten: writer in progress
      | none => some (s.goto i (.polling deadline))
      | some pid => some (s.goto i (.probing deadline inode pid))
  | .probing deadline seen pid =>
    -- the own pid is a sibling instance of this process
    if pid = C.pid (C.home i) ∨ alive C s.live pid then some (s.goto i (.polling deadline))
    else some (s.goto i (.stealing deadline (some seen)))
  | .stealing deadline _ =>
    some ({ s with fs := s.fs.unlink () }.goto i (.opening deadline))
  | .polling deadline => if s.now ≥ deadline then some (s.goto i .naming) else none
  | .asleep deadline wake => if wake ≤ s.now then some (s.goto i (.opening deadline)) else none
  | .naming =>
    some (s.goto i (.idle (some
      (lockTimeout C.lockTimeoutMs ((s.fs.read ()).bind LockData.pid)))))
  | .releaseRead inode since =>
    if (s.fs.read ()).bind LockData.pid = some (C.pid (C.home i)) then
      some (s.goto i (.releaseUnlink inode since))
    else some (s.goto i (.idle none))
  | .releaseUnlink _ _ => some ({ s with fs := s.fs.unlink () }.goto i (.idle none))

def step (s : State) : Action → Option State
  | .start p =>
    if p ∉ s.live ∧ p ∉ s.dead ∧ ∀ q ∈ s.live, C.pid q ≠ C.pid p then
      some { s with live := p :: s.live }
    else none
  | .die p =>
    if p ∈ s.live then some { s with live := s.live.filter (· ≠ p), dead := p :: s.dead } else none
  | .enter i =>
    match s.pc i with
    | .idle _ =>
      if C.home i ∈ s.live then some (s.goto i (.opening (s.now + C.lockTimeoutMs))) else none
    | _ => none
  | .exec i => if C.home i ∈ s.live then exec C s i else none
  | .nap i ms =>
    match s.pc i with
    | .polling deadline =>
      if C.home i ∈ s.live ∧ s.now < deadline ∧ 15 ≤ ms ∧ ms < 35 then
        some (s.goto i (.asleep deadline (s.now + ms)))
      else none
    | _ => none
  | .leave i =>
    match s.pc i with
    | .inside inode since =>
      if C.home i ∈ s.live then some (s.goto i (.releaseRead inode since)) else none
    | _ => none
  | .fail i reason =>
    match s.pc i with
    | .opening _ | .writing .. =>
      if C.home i ∈ s.live then
        some (s.goto i (.idle (some ⟨.ioError, "cannot create lock file: " ++ reason⟩)))
      else none
    | _ => none
  | .advance ms => some { s with now := s.now + ms }

/-! ### The lock's promises -/

/-- The file an instance created and has not given up yet, and when it created it. -/
def Pc.own : Pc → Option (ℕ × ℤ)
  | .writing n c | .inside n c | .releaseRead n c | .releaseUnlink n c => some (n, c)
  | _ => none

/-- The lock file created at `since` is younger than `lockStaleMs`. -/
def Young (s : State) (since : ℤ) : Prop := s.now - since < C.lockStaleMs

/-- A critical section in progress is within `lockStaleMs` of its lock file's creation. -/
def Timely (s : State) : Prop :=
  ∀ i n c, C.home i ∈ s.live → s.pc i = .inside n c → Young C s c

/-- At most one instance is inside `fn`. -/
def Exclusive (s : State) : Prop :=
  ∀ i j n m c d, C.home i ∈ s.live → C.home j ∈ s.live → s.pc i = .inside n c →
    s.pc j = .inside m d → i = j

/-- The step is not a release that removes a lock another instance created. -/
def ReleasesOwn (s : State) : Action → Prop
  | .exec i =>
    match s.pc i with
    | .releaseUnlink n _ => C.home i ∈ s.live → ∀ m, s.fs.dir () = some m → m = n
    | _ => True
  | _ => True

/-- The step unlinks no lock file it should not: a waiter finds the file gone, or the one it judged,
    or one that is no live instance's young lock; a release comes while its lock is young, or finds
    its own file or none. -/
def Fenced (s : State) : Action → Prop
  | .exec i =>
    match s.pc i with
    | .stealing _ seen => ∀ m, s.fs.dir () = some m → seen = some m ∨
        ∀ j c, C.home j ∈ s.live → (s.pc j).own = some (m, c) → ¬ Young C s c
    | .releaseUnlink n c => Young C s c ∨ ∀ m, s.fs.dir () = some m → m = n
    | _ => True
  | _ => True

end Step

/-! ### What the waiters know, and who has the file -/

section Inv
variable (C : Config)

/-- What a waiter's notes say of the file it looked at, which is not a file still to be created. -/
def Noted (s : State) : Pc → Prop
  | .aging _ m mtimeMs => m < s.fs.next ∧ ∀ i c, (s.pc i).own = some (m, c) → c ≤ mtimeMs
  | .probing _ m q => m < s.fs.next ∧ ∀ i c, (s.pc i).own = some (m, c) → q = C.pid (C.home i)
  | .stealing _ (some m) => m < s.fs.next ∧
      ∀ i c, C.home i ∈ s.live → (s.pc i).own = some (m, c) → ¬ Young C s c
  | _ => True

/-- A live instance's young lock is the file under the lock's name, and the notes are right. -/
structure Inv (s : State) : Prop where
  unborn : ∀ i, C.home i ∉ s.live → C.home i ∉ s.dead → s.pc i = .idle none
  created : ∀ {i n c}, (s.pc i).own = some (n, c) →
    n < s.fs.next ∧ c ≤ (s.fs.data n).mtimeMs ∧ c ≤ s.now
  named : ∀ {i n c q}, (s.pc i).own = some (n, c) → (s.fs.data n).pid = some q →
    q = C.pid (C.home i)
  distinct : ∀ {i j n c d}, (s.pc i).own = some (n, c) → (s.pc j).own = some (n, d) → i = j
  kept : ∀ {i n c}, C.home i ∈ s.live → (s.pc i).own = some (n, c) → Young C s c →
    s.fs.dir () = some n
  noted : ∀ j, Noted C s (s.pc j)

variable {C} {s s' : State}

theorem inv_init (now : ℤ) : Inv C (init now) := by
  constructor
  · intro i _ _
    rfl
  · intro i n c h
    cases h
  · intro i n c q h
    cases h
  · intro i j n c d h
    cases h
  · intro i n c _ h
    cases h
  · intro j
    trivial

/-- Notes stay right while the files that exist get no new owner and time goes on. -/
theorem Noted.mono {pc : Pc} (h : Noted C s pc) (hnext : s.fs.next ≤ s'.fs.next)
    (hnow : s.now ≤ s'.now)
    (hown : ∀ {i n c}, n < s.fs.next → (s'.pc i).own = some (n, c) →
      (s.pc i).own = some (n, c) ∧ (C.home i ∈ s'.live → C.home i ∈ s.live)) : Noted C s' pc := by
  cases pc with
  | aging d m t =>
    exact ⟨Nat.lt_of_lt_of_le h.1 hnext, fun i c hi => h.2 i c (hown h.1 hi).1⟩
  | probing d m q =>
    exact ⟨Nat.lt_of_lt_of_le h.1 hnext, fun i c hi => h.2 i c (hown h.1 hi).1⟩
  | stealing d seen =>
    cases seen with
    | none => trivial
    | some m =>
      refine ⟨Nat.lt_of_lt_of_le h.1 hnext, ?_⟩
      intro i c hlive hi hyoung
      obtain ⟨hi, hback⟩ := hown h.1 hi
      refine h.2 i c (hback hlive) hi ?_
      unfold Young at hyoung ⊢
      omega
  | _ => trivial

@[simp] theorem goto_pc_self (s : State) (i : ℕ) (pc : Pc) : (s.goto i pc).pc i = pc :=
  Function.update_self ..

theorem goto_pc_ne (s : State) {i j : ℕ} (h : j ≠ i) (pc : Pc) : (s.goto i pc).pc j = s.pc j :=
  Function.update_of_ne h ..

theorem own_goto {i j : ℕ} {pc : Pc} {n : ℕ} {c : ℤ}
    (h : ((s.goto i pc).pc j).own = some (n, c)) :
    (j = i ∧ pc.own = some (n, c)) ∨ (j ≠ i ∧ (s.pc j).own = some (n, c)) := by
  by_cases hj : j = i
  · subst hj
    rw [goto_pc_self] at h
    exact .inl ⟨rfl, h⟩
  · rw [goto_pc_ne s hj] at h
    exact .inr ⟨hj, h⟩

/-- An instance that moves without a new file of its own. -/
theorem own_of_goto {i j : ℕ} {pc : Pc} {n : ℕ} {c : ℤ}
    (hown : pc.own = none ∨ pc.own = (s.pc i).own)
    (h : ((s.goto i pc).pc j).own = some (n, c)) : (s.pc j).own = some (n, c) := by
  rcases own_goto h with ⟨rfl, hpc⟩ | ⟨-, h⟩
  · rcases hown with hown | hown
    · rw [hown] at hpc
      cases hpc
    · rw [← hown, hpc]
  · exact h

/-- A step of a live instance leaves the processes that have not started yet alone. -/
theorem Inv.unborn_goto (hI : Inv C s) {i : ℕ} {pc : Pc} (hlive : C.home i ∈ s.live) (j : ℕ)
    (hj : C.home j ∉ s.live) (hdead : C.home j ∉ s.dead) : (s.goto i pc).pc j = .idle none := by
  have hne : j ≠ i := by
    rintro rfl
    exact hj hlive
  rw [goto_pc_ne s hne]
  exact hI.unborn j hj hdead

/-- An instance that moves, the file system as it is. -/
theorem Inv.move (hI : Inv C s) {i : ℕ} {pc : Pc} (hlive : C.home i ∈ s.live)
    (hown : pc.own = none ∨ pc.own = (s.pc i).own) (hnote : Noted C s pc) :
    Inv C (s.goto i pc) := by
  constructor
  · exact hI.unborn_goto hlive
  · intro j n c hj
    exact hI.created (own_of_goto hown hj)
  · intro j n c q hj hq
    exact hI.named (own_of_goto hown hj) hq
  · intro j k n c d hj hk
    exact hI.distinct (own_of_goto hown hj) (own_of_goto hown hk)
  · intro j n c hl hj hyoung
    exact hI.kept hl (own_of_goto hown hj) hyoung
  · intro j
    have hmono : ∀ {pc'}, Noted C s pc' → Noted C (s.goto i pc) pc' := fun h =>
      h.mono (Nat.le_refl _) (Int.le_refl _) fun _ ho => ⟨own_of_goto hown ho, id⟩
    by_cases hj : j = i
    · subst hj
      rw [goto_pc_self]
      exact hmono hnote
    · rw [goto_pc_ne s hj]
      exact hmono (hI.noted j)

/-- An exclusive create: the name is free, so no live instance has a young lock. -/
theorem Inv.create (hI : Inv C s) {i : ℕ} (hlive : C.home i ∈ s.live)
    (hfree : s.fs.dir () = none) :
    Inv C ({ s with fs := s.fs.create () ⟨s.now, none⟩ }.goto i (.writing s.fs.next s.now)) := by
  have hold : ∀ {j n c}, (s.pc j).own = some (n, c) → n ≠ s.fs.next := fun hj =>
    Nat.ne_of_lt (hI.created hj).1
  constructor
  · exact hI.unborn_goto hlive
  · intro j n c hj
    rcases own_goto hj with ⟨rfl, hpc⟩ | ⟨-, hj⟩
    · cases hpc
      simp [State.goto, Fs.create]
    · have := hI.created hj
      simp only [State.goto, Fs.create, Function.update_of_ne (hold hj)]
      exact ⟨Nat.lt_succ_of_lt this.1, this.2⟩
  · intro j n c q hj hq
    rcases own_goto hj with ⟨rfl, hpc⟩ | ⟨-, hj⟩
    · cases hpc
      simp [State.goto, Fs.create] at hq
    · simp only [State.goto, Fs.create, Function.update_of_ne (hold hj)] at hq
      exact hI.named hj hq
  · intro j k n c d hj hk
    rcases own_goto hj with ⟨hji, hpc⟩ | ⟨-, hj'⟩ <;> rcases own_goto hk with ⟨hki, hpc'⟩ | ⟨-, hk'⟩
    · rw [hji, hki]
    · cases hpc
      exact absurd rfl (hold hk')
    · cases hpc'
      exact absurd rfl (hold hj')
    · exact hI.distinct hj' hk'
  · intro j n c hl hj hyoung
    rcases own_goto hj with ⟨rfl, hpc⟩ | ⟨-, hj⟩
    · cases hpc
      exact Fs.create_dir_self
    · have hdir := hI.kept hl hj hyoung
      rw [hfree] at hdir
      cases hdir
  · intro j
    by_cases hj : j = i
    · subst hj
      rw [goto_pc_self]
      trivial
    · rw [goto_pc_ne _ hj]
      refine (hI.noted j).mono (Nat.le_succ _) (Int.le_refl _) fun hn ho => ⟨?_, id⟩
      rcases own_goto ho with ⟨rfl, hpc⟩ | ⟨-, ho⟩
      · cases hpc
        exact absurd hn (Nat.lt_irrefl _)
      · exact ho

/-- The pid is written into the file the instance created, wherever that is now. -/
theorem Inv.write (hI : Inv C s) {i n : ℕ} {c : ℤ} (hlive : C.home i ∈ s.live)
    (hpc : s.pc i = .writing n c) :
    Inv C ({ s with fs := s.fs.writeTo n ⟨s.now, some (C.pid (C.home i))⟩ }.goto i
      (.inside n c)) := by
  have hi : (s.pc i).own = some (n, c) := by rw [hpc]; rfl
  have hown : ∀ {j m d}, ((s.goto i (.inside n c)).pc j).own = some (m, d) →
      (s.pc j).own = some (m, d) := by
    intro j m d hj
    refine own_of_goto ?_ hj
    rw [hi]
    exact .inr rfl
  constructor
  · exact hI.unborn_goto hlive
  · intro j m d hj
    have := hI.created (hown hj)
    by_cases hm : m = n
    · subst hm
      obtain rfl := hI.distinct hi (hown hj)
      obtain rfl : c = d := by
        have := hown hj
        rw [hi] at this
        cases this
        rfl
      simpa [State.goto, Fs.writeTo] using ⟨this.1, this.2.2⟩
    · simpa [State.goto, Fs.writeTo, Function.update_of_ne hm] using this
  · intro j m d q hj hq
    by_cases hm : m = n
    · subst hm
      obtain rfl := hI.distinct hi (hown hj)
      simp [State.goto, Fs.writeTo] at hq
      exact hq.symm
    · simp only [State.goto, Fs.writeTo, Function.update_of_ne hm] at hq
      exact hI.named (hown hj) hq
  · intro j k m d e hj hk
    exact hI.distinct (hown hj) (hown hk)
  · intro j m d hl hj hyoung
    exact hI.kept hl (hown hj) hyoung
  · intro j
    by_cases hj : j = i
    · subst hj
      rw [goto_pc_self]
      trivial
    · rw [goto_pc_ne _ hj]
      exact (hI.noted j).mono (Nat.le_refl _) (Int.le_refl _) fun _ ho => ⟨hown ho, id⟩

/-- An unlink that takes no live instance's young lock but the unlinker's own, which it gives up. -/
theorem Inv.unlink (hI : Inv C s) {i : ℕ} {pc : Pc} (hlive : C.home i ∈ s.live)
    (hown : pc.own = none) (hnote : Noted C s pc)
    (hsafe : ∀ {j n c}, j ≠ i → C.home j ∈ s.live → (s.pc j).own = some (n, c) → Young C s c →
      s.fs.dir () ≠ some n) :
    Inv C ({ s with fs := s.fs.unlink () }.goto i pc) := by
  have hI' := hI.move hlive (.inl hown) hnote
  refine ⟨hI'.unborn, hI'.created, hI'.named, hI'.distinct, ?_, fun j => ?_⟩
  · intro j n c hl hj hyoung
    rcases own_goto hj with ⟨rfl, hpc⟩ | ⟨hne, hj⟩
    · rw [hown] at hpc
      cases hpc
    · exact absurd (hI.kept hl hj hyoung) (hsafe hne hl hj hyoung)
  · exact (hI'.noted j).mono (Nat.le_refl _) (Int.le_refl _) fun _ ho => ⟨ho, id⟩

/-- Processes that start have no instance anywhere yet. -/
theorem Inv.start (hI : Inv C s) {p : ℕ} (hlive : p ∉ s.live) (hdead : p ∉ s.dead) :
    Inv C { s with live := p :: s.live } := by
  have hback : ∀ {i n c}, (s.pc i).own = some (n, c) → C.home i ∈ p :: s.live →
      C.home i ∈ s.live := by
    intro i n c hi hmem
    rcases List.mem_cons.mp hmem with rfl | hmem
    · rw [hI.unborn i hlive hdead] at hi
      cases hi
    · exact hmem
  refine ⟨?_, hI.created, hI.named, hI.distinct, ?_, ?_⟩
  · intro i hi hd
    exact hI.unborn i (fun hmem => hi (List.mem_cons_of_mem _ hmem)) hd
  · intro i n c hl hi hyoung
    exact hI.kept (hback hi hl) hi hyoung
  · intro i
    exact (hI.noted i).mono (Nat.le_refl _) (Int.le_refl _) fun _ ho => ⟨ho, hback ho⟩

theorem Inv.die (hI : Inv C s) {p : ℕ} :
    Inv C { s with live := s.live.filter (· ≠ p), dead := p :: s.dead } := by
  refine ⟨?_, hI.created, hI.named, hI.distinct, ?_, ?_⟩
  · intro i hi hd
    refine hI.unborn i (fun hmem => hi (List.mem_filter.mpr ⟨hmem, ?_⟩))
      (fun hmem => hd (List.mem_cons_of_mem _ hmem))
    rw [decide_eq_true_iff]
    rintro rfl
    exact hd (List.mem_cons_self ..)
  · intro i n c hl hi hyoung
    exact hI.kept (List.mem_filter.mp hl).1 hi hyoung
  · intro i
    exact (hI.noted i).mono (Nat.le_refl _) (Int.le_refl _) fun _ ho =>
      ⟨ho, fun hl => (List.mem_filter.mp hl).1⟩

/-- Locks only grow older. -/
theorem Inv.advance (hI : Inv C s) (ms : ℕ) : Inv C { s with now := s.now + ms } := by
  refine ⟨hI.unborn, ?_, hI.named, hI.distinct, ?_, ?_⟩
  · intro i n c hi
    have hc := hI.created hi
    refine ⟨hc.1, hc.2.1, ?_⟩
    change c ≤ s.now + ms
    omega
  · intro i n c hl hi hyoung
    refine hI.kept hl hi ?_
    unfold Young at hyoung ⊢
    change s.now + ms - c < _ at hyoung
    omega
  · intro i
    refine (hI.noted i).mono (Nat.le_refl _) ?_ fun _ ho => ⟨ho, id⟩
    change s.now ≤ s.now + ms
    omega

/-! ### The invariant over one step -/

/-- What a waiter is about to do unlinks no live instance's young lock. -/
theorem Inv.steal_safe (hI : Inv C s) {i : ℕ} {d : ℤ} {seen : Option ℕ}
    (hpc : s.pc i = .stealing d seen) (hok : Fenced C s (.exec i)) {j n : ℕ} {c : ℤ}
    (hl : C.home j ∈ s.live) (hj : (s.pc j).own = some (n, c)) (hyoung : Young C s c) :
    s.fs.dir () ≠ some n := by
  intro hdir
  simp only [Fenced, hpc] at hok
  rcases hok n hdir with rfl | hold
  · have hnote := hI.noted i
    rw [hpc] at hnote
    exact hnote.2 j c hl hj hyoung
  · exact hold j c hl hj hyoung

/-- A release finds its own file or none. -/
theorem Inv.release_own (hI : Inv C s) {i n : ℕ} {c : ℤ} (hl : C.home i ∈ s.live)
    (hpc : s.pc i = .releaseUnlink n c) (hok : Fenced C s (.exec i)) {m : ℕ}
    (hdir : s.fs.dir () = some m) : m = n := by
  simp only [Fenced, hpc] at hok
  rcases hok with hyoung | hown
  · have hkept := hI.kept hl (by rw [hpc]; rfl) hyoung
    rw [hdir, Option.some.injEq] at hkept
    exact hkept
  · exact hown m hdir

theorem Inv.exec (hI : Inv C s) {i : ℕ} (hl : C.home i ∈ s.live) (hok : Fenced C s (.exec i))
    (h : exec C s i = some s') : Inv C s' := by
  unfold AdvisoryLock.exec at h
  split at h
  · cases h
  · cases h
  · rename_i deadline hpc
    split at h
    · cases h
      exact hI.move hl (.inl rfl) trivial
    · rename_i fs inode hcreate
      obtain ⟨hfree, rfl, rfl⟩ := Fs.createExcl_some hcreate
      cases h
      exact hI.create hl hfree
  · rename_i inode since hpc
    cases h
    exact hI.write hl hpc
  · rename_i deadline hpc
    split at h
    · cases h
      exact hI.move hl (.inl rfl) trivial
    · rename_i inode hdir
      cases h
      refine hI.move hl (.inl rfl) ⟨s.fs.bounded _ _ hdir, ?_⟩
      intro j c hj
      exact (hI.created hj).2.1
  · rename_i deadline seen mtimeMs hpc
    have hnote := hI.noted i
    rw [hpc] at hnote
    split at h
    · rename_i hage
      cases h
      refine hI.move hl (.inl rfl) ⟨hnote.1, ?_⟩
      intro j c _ hj hyoung
      have := hnote.2 j c hj
      unfold Young at hyoung
      omega
    · cases h
      exact hI.move hl (.inl rfl) trivial
  · rename_i deadline hpc
    split at h
    · cases h
      exact hI.move hl (.inl rfl) trivial
    · rename_i inode hdir
      split at h
      · cases h
        exact hI.move hl (.inl rfl) trivial
      · rename_i pid hpid
        cases h
        refine hI.move hl (.inl rfl) ⟨s.fs.bounded _ _ hdir, ?_⟩
        intro j c hj
        exact hI.named hj hpid
  · rename_i deadline seen pid hpc
    have hnote := hI.noted i
    rw [hpc] at hnote
    split at h
    · cases h
      exact hI.move hl (.inl rfl) trivial
    · rename_i hgone
      cases h
      refine hI.move hl (.inl rfl) ⟨hnote.1, ?_⟩
      intro j c hlive hj _
      refine hgone (.inr ?_)
      rw [hnote.2 j c hj]
      exact List.any_eq_true.mpr ⟨_, hlive, beq_self_eq_true _⟩
  · rename_i deadline seen hpc
    cases h
    exact hI.unlink hl rfl trivial fun _ hl hj hyoung => hI.steal_safe hpc hok hl hj hyoung
  · rename_i deadline hpc
    split at h
    · cases h
      exact hI.move hl (.inl rfl) trivial
    · cases h
  · rename_i deadline wake hpc
    split at h
    · cases h
      exact hI.move hl (.inl rfl) trivial
    · cases h
  · cases h
    exact hI.move hl (.inl rfl) trivial
  · rename_i inode since hpc
    split at h
    · cases h
      refine hI.move hl (.inr ?_) trivial
      rw [hpc]
      rfl
    · cases h
      exact hI.move hl (.inl rfl) trivial
  · rename_i inode since hpc
    cases h
    refine hI.unlink hl rfl trivial fun hne hlj hj _ hdir => ?_
    have hown := hI.release_own hl hpc hok hdir
    subst hown
    exact hne (hI.distinct hj (by rw [hpc]; rfl))

theorem inv_step (s : State) (a : Action) (s' : State) (hI : Inv C s) (hok : Fenced C s a)
    (h : step C s a = some s') : Inv C s' := by
  cases a with
  | start p =>
    simp only [step] at h
    split at h
    · rename_i hp
      cases h
      exact hI.start hp.1 hp.2.1
    · cases h
  | die p =>
    simp only [step] at h
    split at h
    · cases h
      exact hI.die
    · cases h
  | enter i =>
    simp only [step] at h
    split at h
    · split at h
      · rename_i hl
        cases h
        exact hI.move hl (.inl rfl) trivial
      · cases h
    · cases h
  | exec i =>
    simp only [step] at h
    split at h
    · rename_i hl
      exact hI.exec hl hok h
    · cases h
  | nap i ms =>
    simp only [step] at h
    split at h
    · split at h
      · rename_i hl
        cases h
        exact hI.move hl.1 (.inl rfl) trivial
      · cases h
    · cases h
  | leave i =>
    simp only [step] at h
    split at h
    · rename_i inode since hpc
      split at h
      · rename_i hl
        cases h
        refine hI.move hl (.inr ?_) trivial
        rw [hpc]
        rfl
      · cases h
    · cases h
  | fail i reason =>
    simp only [step] at h
    split at h
    · split at h
      · rename_i hl
        cases h
        exact hI.move hl (.inl rfl) trivial
      · cases h
    · split at h
      · rename_i hl
        cases h
        exact hI.move hl (.inl rfl) trivial
      · cases h
    · cases h
  | advance ms =>
    cases h
    exact hI.advance ms

/-- Two instances inside have young locks, hence the one file of the lock's name. -/
theorem exclusive_of_inv (s : State) (hI : Inv C s) (ht : Timely C s) : Exclusive C s := by
  intro i j n m c d hi hj hpci hpcj
  have hown : (s.pc i).own = some (n, c) := by rw [hpci]; rfl
  have hown' : (s.pc j).own = some (m, d) := by rw [hpcj]; rfl
  have hdir := hI.kept hi hown (ht i n c hi hpci)
  rw [hI.kept hj hown' (ht j m d hj hpcj), Option.some.injEq] at hdir
  subst hdir
  exact hI.distinct hown hown'

theorem releasesOwn_of_inv (s : State) (a : Action) (hI : Inv C s) (hok : Fenced C s a) :
    ReleasesOwn C s a := by
  cases a with
  | exec i =>
    simp only [ReleasesOwn]
    split
    · rename_i n c hpc
      intro hl m hdir
      exact hI.release_own hl hpc hok hdir
    · trivial
  | _ => trivial

end Inv

/-- In every run of any instances and processes in which critical sections finish within
    `lockStaleMs` and no unlink is one that `Fenced` rules out, one instance is inside `fn` at a time
    and no release removes a lock that another instance created. -/
theorem exclusive_of_fenced (C : Config) (now : ℤ) (actions : List Action)
    (htimely : Everywhere (step C) (Timely C) (init now) actions)
    (hfenced : Along (step C) (Fenced C) (init now) actions) :
    Everywhere (step C) (Exclusive C) (init now) actions ∧
      Along (step C) (ReleasesOwn C) (init now) actions := by
  have hexcl : Everywhere (step C) (fun s => Timely C s → Exclusive C s) (init now) actions :=
    everywhere_of_along inv_step exclusive_of_inv actions (inv_init now) hfenced
  refine ⟨hexcl.mp htimely, ?_⟩
  exact along_of_along inv_step releasesOwn_of_inv actions (inv_init now) hfenced

/-! ### A dead holder and two waiters -/

/-- Three processes with an instance each. -/
def threeProcesses : Config := ⟨id, fun p => 100 + p, 10000, 5000⟩

/-- Instance `i` finds the lock file of a dead holder and judges it stale. -/
def judge (i : ℕ) : List Action := [.enter i, .exec i, .exec i, .exec i, .exec i, .exec i]

/-- Unlink, create, write. -/
def steal (i : ℕ) : List Action := [.exec i, .exec i, .exec i]

/-- Process 0 dies in its critical section. -/
def holderDies : List Action := [.start 0, .start 1, .start 2, .enter 0, .exec 0, .exec 0, .die 0]

/-- `Timely` for instances that are named by their processes. -/
def timelyNow (s : State) : Bool :=
  s.live.all fun i => match s.pc i with
    | .inside _ since => s.now - since < threeProcesses.lockStaleMs
    | _ => true

theorem timely_of_timelyNow (s : State) (h : timelyNow s = true) : Timely threeProcesses s := by
  intro i n c hi hpc
  have hyoung := List.all_eq_true.mp h i hi
  rw [hpc, decide_eq_true_iff] at hyoung
  exact hyoung

def Pc.isInside : Pc → Bool
  | .inside .. => true
  | _ => false

theorem Pc.inside_of_isInside {pc : Pc} (h : pc.isInside = true) : ∃ n c, pc = .inside n c := by
  cases pc with
  | inside n c => exact ⟨n, c, rfl⟩
  | _ => cases h

/-- Instance 1 has stolen the lock and is inside when instance 2, which judged the dead holder's lock
    too, unlinks it and comes in as well. -/
theorem two_stealers_both_inside :
    ¬ ∀ (C : Config) (now : ℤ) (actions : List Action),
      Everywhere (step C) (Timely C) (init now) actions →
        Everywhere (step C) (Exclusive C) (init now) actions ∧
          Along (step C) (ReleasesOwn C) (init now) actions := by
  intro hall
  let actions := holderDies ++ judge 1 ++ judge 2 ++ steal 1 ++ steal 2
  have htimely : Everywhere (step threeProcesses) (Timely threeProcesses) (init 0) actions :=
    (everywhere_of_forall timely_of_timelyNow _ _).mp (by decide +kernel)
  let bad : State → Bool := fun s =>
    decide (1 ∈ s.live ∧ 2 ∈ s.live) && (s.pc 1).isInside && (s.pc 2).isInside
  have hend : (run (step threeProcesses) (init 0) actions).any bad = true := by decide +kernel
  refine not_everywhere bad hend (fun s hbad hexcl => ?_) (hall threeProcesses 0 actions htimely).1
  simp only [bad, Bool.and_eq_true, decide_eq_true_iff] at hbad
  obtain ⟨⟨⟨hlive, hlive'⟩, hin⟩, hin'⟩ := hbad
  obtain ⟨n, c, hpc⟩ := Pc.inside_of_isInside hin
  obtain ⟨m, d, hpc'⟩ := Pc.inside_of_isInside hin'
  exact absurd (hexcl 1 2 n m c d hlive hlive' hpc hpc') (by decide)

/-- The file an unlinking step finds is the one it judged or its own, or gone. -/
def finds (s : State) : Action → Bool
  | .exec i =>
    match s.pc i with
    | .stealing _ seen => s.fs.dir () = none || s.fs.dir () = seen
    | .releaseUnlink n _ => s.fs.dir () = none || s.fs.dir () = some n
    | _ => true
  | _ => true

theorem fenced_of_finds {C : Config} (s : State) (a : Action) (h : finds s a = true) :
    Fenced C s a := by
  cases a with
  | exec i =>
    simp only [Fenced]
    split
    · rename_i d seen hpc
      intro m hdir
      simp only [finds, hpc, hdir, Bool.or_eq_true, decide_eq_true_iff] at h
      rcases h with h | h
      · cases h
      · exact .inl h.symm
    · rename_i n c hpc
      refine .inr fun m hdir => ?_
      simp only [finds, hpc, hdir, Bool.or_eq_true, decide_eq_true_iff] at h
      rcases h with h | h
      · cases h
      · exact Option.some.inj h
    · trivial
  | _ => trivial

/-- Instance 1 steals the dead holder's lock alone, works and releases; then instance 2 has its
    turn. -/
theorem exclusive_of_fenced_oneStealer :
    Everywhere (step threeProcesses) (Exclusive threeProcesses) (init 0)
        (holderDies ++ judge 1 ++ steal 1 ++ [.leave 1, .exec 1, .exec 1, .enter 2, .exec 2]) ∧
      Along (step threeProcesses) (ReleasesOwn threeProcesses) (init 0)
        (holderDies ++ judge 1 ++ steal 1 ++ [.leave 1, .exec 1, .exec 1, .enter 2, .exec 2]) := by
  refine exclusive_of_fenced threeProcesses 0 _ ?_ ?_
  · exact (everywhere_of_forall timely_of_timelyNow _ _).mp (by decide +kernel)
  · have hfinds : Along (step threeProcesses) (fun s a => finds s a = true) (init 0)
        (holderDies ++ judge 1 ++ steal 1 ++ [.leave 1, .exec 1, .exec 1, .enter 2, .exec 2]) := by
      decide +kernel
    exact along_of_along (I := fun _ => True) (fun _ _ _ _ _ _ => trivial)
      (fun s a _ h => fenced_of_finds s a h) _ trivial hfinds

end Remembra.Store.AdvisoryLock
