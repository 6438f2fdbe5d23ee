import Mathlib.Tactic.Common

/-! One directory of a file system, at the grain of its atomic steps: names point to inodes, inodes
    hold contents. An open descriptor is an inode, so a write through it still reaches the inode
    after the name was unlinked or points elsewhere. There are no hard links (`single`), and the next
    inode is always unused (`bounded`). -/

namespace Remembra

/-- A directory over names `π` with file contents in `δ`. -/
structure Fs (π δ : Type*) where
  dir : π → Option ℕ
  data : ℕ → δ
  next : ℕ
  bounded : ∀ f i, dir f = some i → i < next
  single : ∀ f f' i, dir f = some i → dir f' = some i → f = f'

namespace Fs

variable {π δ : Type*}

def empty (blank : δ) : Fs π δ where
  dir := fun _ => none
  data := fun _ => blank
  next := 0
  bounded := by intro f i h; cases h
  single := by intro f f' i h; cases h

def read (fs : Fs π δ) (f : π) : Option δ := (fs.dir f).map fs.data

/-- Write through a descriptor. -/
def writeTo (fs : Fs π δ) (i : ℕ) (d : δ) : Fs π δ :=
  { fs with data := Function.update fs.data i d }

variable {fs : Fs π δ} {f g : π} {d : δ} {i : ℕ}

theorem read_writeTo_self (h : fs.dir f = some i) : (fs.writeTo i d).read f = some d := by
  simp [read, h, writeTo]

/-- A write through a descriptor shows under no other name than the inode's own. -/
theorem read_writeTo_ne (h : fs.dir g ≠ some i) : (fs.writeTo i d).read g = fs.read g := by
  unfold read writeTo
  cases hg : fs.dir g with
  | none => rfl
  | some j =>
    have hj : j ≠ i := by rintro rfl; exact h hg
    simp [Function.update_of_ne hj]

variable [DecidableEq π]

/-- Point `f` at the next inode, holding `d`. -/
def create (fs : Fs π δ) (f : π) (d : δ) : Fs π δ where
  dir := Function.update fs.dir f (some fs.next)
  data := Function.update fs.data fs.next d
  next := fs.next + 1
  bounded := by
    intro g i h
    by_cases hg : g = f
    · rw [hg, Function.update_self, Option.some.injEq] at h
      omega
    · rw [Function.update_of_ne hg] at h
      exact Nat.lt_succ_of_lt (fs.bounded g i h)
  single := by
    intro g g' i h h'
    by_cases hg : g = f <;> by_cases hg' : g' = f
    · rw [hg, hg']
    · rw [hg, Function.update_self, Option.some.injEq] at h
      rw [Function.update_of_ne hg', ← h] at h'
      exact absurd (fs.bounded g' _ h') (Nat.lt_irrefl _)
    · rw [hg', Function.update_self, Option.some.injEq] at h'
      rw [Function.update_of_ne hg, ← h'] at h
      exact absurd (fs.bounded g _ h) (Nat.lt_irrefl _)
    · rw [Function.update_of_ne hg] at h
      rw [Function.update_of_ne hg'] at h'
      exact fs.single g g' i h h'

/-- Exclusive create: fails when the name exists. The new file is `blank` until it is written. -/
def createExcl (fs : Fs π δ) (f : π) (blank : δ) : Option (Fs π δ × ℕ) :=
  match fs.dir f with
  | some _ => none
  | none => some (fs.create f blank, fs.next)

def unlink (fs : Fs π δ) (f : π) : Fs π δ where
  dir := Function.update fs.dir f none
  data := fs.data
  next := fs.next
  bounded := by
    intro g i h
    by_cases hg : g = f
    · rw [hg, Function.update_self] at h; cases h
    · rw [Function.update_of_ne hg] at h; exact fs.bounded g i h
  single := by
    intro g g' i h h'
    by_cases hg : g = f
    · rw [hg, Function.update_self] at h; cases h
    by_cases hg' : g' = f
    · rw [hg', Function.update_self] at h'; cases h'
    rw [Function.update_of_ne hg] at h
    rw [Function.update_of_ne hg'] at h'
    exact fs.single g g' i h h'

/-- Open for writing, creating the file when the name is free, truncate and write. -/
def overwrite (fs : Fs π δ) (f : π) (d : δ) : Fs π δ :=
  match fs.dir f with
  | some i => fs.writeTo i d
  | none => fs.create f d

theorem createExcl_some {fs' : Fs π δ} (h : fs.createExcl f d = some (fs', i)) :
    fs.dir f = none ∧ fs' = fs.create f d ∧ i = fs.next := by
  unfold createExcl at h
  split at h
  · cases h
  · cases h; exact ⟨by assumption, rfl, rfl⟩

@[simp] theorem create_dir_self : (fs.create f d).dir f = some fs.next := Function.update_self ..

theorem create_dir_ne (h : g ≠ f) : (fs.create f d).dir g = fs.dir g :=
  Function.update_of_ne h ..

theorem unlink_dir_ne (h : g ≠ f) : (fs.unlink f).dir g = fs.dir g := Function.update_of_ne h ..

/-- An inode that some name points to keeps its contents when another file is created. -/
theorem create_data_of_dir (h : fs.dir g = some i) : (fs.create f d).data i = fs.data i :=
  Function.update_of_ne (Nat.ne_of_lt (fs.bounded g i h)) ..

theorem read_create_self : (fs.create f d).read f = some d := by
  simp [read, create]

theorem read_create_ne (h : g ≠ f) : (fs.create f d).read g = fs.read g := by
  unfold read
  rw [create_dir_ne h]
  cases hg : fs.dir g with
  | none => rfl
  | some j => simp [create_data_of_dir hg]

theorem read_unlink_self : (fs.unlink f).read f = none := by
  simp [read, unlink]

theorem read_unlink_ne (h : g ≠ f) : (fs.unlink f).read g = fs.read g := by
  unfold read
  rw [unlink_dir_ne h]
  rfl

theorem read_overwrite_self : (fs.overwrite f d).read f = some d := by
  unfold overwrite
  split
  · exact read_writeTo_self (by assumption)
  · exact read_create_self

theorem read_overwrite_ne (h : g ≠ f) : (fs.overwrite f d).read g = fs.read g := by
  unfold overwrite
  split
  · rename_i j hj
    exact read_writeTo_ne fun hg => h (fs.single g f j hg hj)
  · exact read_create_ne h

/-- Overwriting one name moves no other name. -/
theorem overwrite_dir_ne (h : g ≠ f) : (fs.overwrite f d).dir g = fs.dir g := by
  unfold overwrite
  split
  · rfl
  · exact create_dir_ne h

end Fs
end Remembra
