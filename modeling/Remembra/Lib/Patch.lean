import Mathlib

/-! Edit scripts and patches. An edit script tells line by line how one text becomes another; a patch has
    pieces of it, the hunks, with the places they belong to. What the script keeps outside of its hunks
    is not in the patch; it is copied when the patch is applied. -/

namespace Remembra.Patch
variable {α : Type*}

inductive Kind where
  | keep | add | remove
  deriving DecidableEq

structure Op (α : Type*) where
  kind : Kind
  line : α
  deriving DecidableEq

def Op.isKeep (op : Op α) : Bool := op.kind = .keep

/-- The lines that the script starts from. -/
def old (ops : List (Op α)) : List α := (ops.filter fun op => op.kind ≠ .add).map Op.line

/-- The lines that the script ends with. -/
def new (ops : List (Op α)) : List α := (ops.filter fun op => op.kind ≠ .remove).map Op.line

/-- How many lines the script keeps. -/
def kept (ops : List (Op α)) : ℕ := ops.countP Op.isKeep

/-- A piece of a script, the line in the old and in the new text where it begins, and how many lines of
    each it has. -/
structure Hunk (α : Type*) where
  aStart : ℕ
  aCount : ℕ
  bStart : ℕ
  bCount : ℕ
  body : List (Op α)

/-- The patch makes the lines `b` of the lines `a`, where the first of them have the numbers `i` and `j`:
    in front of a hunk lines are copied, and the hunk finds its old lines where it says. -/
def Applies (i j : ℕ) : List (Hunk α) → List α → List α → Prop
  | [], a, b => a = b
  | h :: hunks, a, b => ∃ between a' b',
    a = between ++ old h.body ++ a' ∧ b = between ++ new h.body ++ b' ∧
      h.aStart = i + between.length ∧ h.bStart = j + between.length ∧
      h.aCount = (old h.body).length ∧ h.bCount = (new h.body).length ∧
      Applies (h.aStart + h.aCount) (h.bStart + h.bCount) hunks a' b'

/-- The script is cut into the hunks: everything in between is kept. -/
def Cut (i j : ℕ) : List (Hunk α) → List (Op α) → Prop
  | [], ops => ∀ op ∈ ops, op.isKeep = true
  | h :: hunks, ops => ∃ between rest, ops = between ++ h.body ++ rest ∧
    (∀ op ∈ between, op.isKeep = true) ∧
      h.aStart = i + between.length ∧ h.bStart = j + between.length ∧
      h.aCount = (old h.body).length ∧ h.bCount = (new h.body).length ∧
      Cut (h.aStart + h.aCount) (h.bStart + h.bCount) hunks rest

/-- One hunk lies in front of the other, in both texts. -/
def Before (h k : Hunk α) : Prop := h.aStart + h.aCount ≤ k.aStart ∧ h.bStart + h.bCount ≤ k.bStart

section Script
variable {ops ops' : List (Op α)}

@[simp] theorem old_append : old (ops ++ ops') = old ops ++ old ops' := by simp [old]
@[simp] theorem new_append : new (ops ++ ops') = new ops ++ new ops' := by simp [new]
@[simp] theorem kept_append : kept (ops ++ ops') = kept ops + kept ops' := List.countP_append ..

@[simp] theorem old_keep (x : α) : old (⟨.keep, x⟩ :: ops) = x :: old ops := by simp [old]
@[simp] theorem old_remove (x : α) : old (⟨.remove, x⟩ :: ops) = x :: old ops := by simp [old]
@[simp] theorem old_add (x : α) : old (⟨.add, x⟩ :: ops) = old ops := by simp [old]
@[simp] theorem new_keep (x : α) : new (⟨.keep, x⟩ :: ops) = x :: new ops := by simp [new]
@[simp] theorem new_remove (x : α) : new (⟨.remove, x⟩ :: ops) = new ops := by simp [new]
@[simp] theorem new_add (x : α) : new (⟨.add, x⟩ :: ops) = x :: new ops := by simp [new]
@[simp] theorem kept_keep (x : α) : kept (⟨.keep, x⟩ :: ops) = kept ops + 1 := by simp [kept, Op.isKeep]
@[simp] theorem kept_remove (x : α) : kept (⟨.remove, x⟩ :: ops) = kept ops := by simp [kept, Op.isKeep]
@[simp] theorem kept_add (x : α) : kept (⟨.add, x⟩ :: ops) = kept ops := by simp [kept, Op.isKeep]

@[simp] theorem old_adds (l : List α) : old (l.map fun x => (⟨.add, x⟩ : Op α)) = [] := by
  induction l with
  | nil => rfl
  | cons x l ih => rw [List.map_cons, old_add, ih]

@[simp] theorem old_removes (l : List α) : old (l.map fun x => (⟨.remove, x⟩ : Op α)) = l := by
  induction l with
  | nil => rfl
  | cons x l ih => rw [List.map_cons, old_remove, ih]

@[simp] theorem new_adds (l : List α) : new (l.map fun x => (⟨.add, x⟩ : Op α)) = l := by
  induction l with
  | nil => rfl
  | cons x l ih => rw [List.map_cons, new_add, ih]

@[simp] theorem new_removes (l : List α) : new (l.map fun x => (⟨.remove, x⟩ : Op α)) = [] := by
  induction l with
  | nil => rfl
  | cons x l ih => rw [List.map_cons, new_remove, ih]

@[simp] theorem kept_adds (l : List α) : kept (l.map fun x => (⟨.add, x⟩ : Op α)) = 0 := by
  induction l with
  | nil => rfl
  | cons x l ih => rw [List.map_cons, kept_add, ih]

@[simp] theorem kept_removes (l : List α) : kept (l.map fun x => (⟨.remove, x⟩ : Op α)) = 0 := by
  induction l with
  | nil => rfl
  | cons x l ih => rw [List.map_cons, kept_remove, ih]

/-- Where everything is kept the two texts are one. -/
theorem old_eq_new (h : ∀ op ∈ ops, op.isKeep = true) : old ops = new ops := by
  unfold old new
  congr 1
  refine List.filter_congr fun op hop => ?_
  have hkeep : op.kind = .keep := of_decide_eq_true (h op hop)
  simp [hkeep]

theorem length_old (ops : List (Op α)) : (old ops).length = ops.countP fun op => op.kind ≠ .add := by
  rw [old, List.length_map, List.countP_eq_length_filter]

theorem length_new (ops : List (Op α)) : (new ops).length = ops.countP fun op => op.kind ≠ .remove := by
  rw [new, List.length_map, List.countP_eq_length_filter]

theorem length_old_of_keep (h : ∀ op ∈ ops, op.isKeep = true) : (old ops).length = ops.length := by
  have hall : ops.filter (fun op => op.kind ≠ .add) = ops := by
    refine List.filter_eq_self.mpr fun op hop => ?_
    have hkeep : op.kind = .keep := of_decide_eq_true (h op hop)
    simp [hkeep]
  rw [old, List.length_map, hall]

theorem kept_of_keep (h : ∀ op ∈ ops, op.isKeep = true) : kept ops = ops.length :=
  List.countP_eq_length.mpr h

end Script

/-! ### How many items of a list come before the first that fails a test -/

section Run
variable {l : List α} {p : α → Bool} {x : α} {n : ℕ}

theorem pos_of_lt_run (h : n < (l.takeWhile p).length) (hx : l[n]? = some x) : p x = true := by
  induction l generalizing n with
  | nil => exact absurd h (Nat.not_lt_zero n)
  | cons y l ih =>
    rw [List.takeWhile_cons] at h
    split at h
    · rename_i hy
      cases n with
      | zero => exact Option.some.inj hx ▸ hy
      | succ n => exact ih (Nat.lt_of_succ_lt_succ h) hx
    · exact absurd h (Nat.not_lt_zero n)

theorem neg_after_run (h : (l.takeWhile p).length < l.length) :
    ∃ x, l[(l.takeWhile p).length]? = some x ∧ ¬ p x = true := by
  induction l with
  | nil => exact absurd h (Nat.lt_irrefl 0)
  | cons y l ih =>
    rw [List.takeWhile_cons] at h ⊢
    split
    · rename_i hy
      rw [if_pos hy] at h
      exact ih (Nat.lt_of_succ_lt_succ h)
    · rename_i hy
      exact ⟨y, rfl, hy⟩

theorem run_le (hx : l[n]? = some x) (hneg : ¬ p x = true) : (l.takeWhile p).length ≤ n :=
  Nat.le_of_not_lt fun h => hneg (pos_of_lt_run h hx)

end Run

section Applies
variable {i j : ℕ} {hunks : List (Hunk α)} {a b : List α}

/-- Every hunk lies behind the place where the patch begins. -/
theorem start_le (h : Applies i j hunks a b) : ∀ k ∈ hunks, i ≤ k.aStart ∧ j ≤ k.bStart := by
  induction hunks generalizing i j a b with
  | nil =>
    intro k hk
    exact absurd hk List.not_mem_nil
  | cons first hunks ih =>
    obtain ⟨between, a', b', -, -, ha, hb, -, -, hrest⟩ := h
    intro k hk
    rcases List.mem_cons.mp hk with rfl | hk
    · omega
    · have hstart := ih hrest k hk
      omega

/-- The hunks of a patch that applies are in order, and they do not overlap. -/
theorem pairwise_before (h : Applies i j hunks a b) : hunks.Pairwise Before := by
  induction hunks generalizing i j a b with
  | nil => exact .nil
  | cons first hunks ih =>
    obtain ⟨between, a', b', -, -, -, -, -, -, hrest⟩ := h
    exact .cons (fun k hk => start_le hrest k hk) (ih hrest)

theorem counts (h : Applies i j hunks a b) :
    ∀ k ∈ hunks, k.aCount = (old k.body).length ∧ k.bCount = (new k.body).length := by
  induction hunks generalizing i j a b with
  | nil =>
    intro k hk
    exact absurd hk List.not_mem_nil
  | cons first hunks ih =>
    obtain ⟨between, a', b', -, -, -, -, ha, hb, hrest⟩ := h
    intro k hk
    rcases List.mem_cons.mp hk with rfl | hk
    · exact ⟨ha, hb⟩
    · exact ih hrest k hk

theorem sum_aCount_le (h : Applies i j hunks a b) : (hunks.map Hunk.aCount).sum ≤ a.length := by
  induction hunks generalizing i j a b with
  | nil => exact Nat.zero_le _
  | cons first hunks ih =>
    obtain ⟨between, a', b', rfl, -, -, -, ha, -, hrest⟩ := h
    have hle := ih hrest
    simp only [List.map_cons, List.sum_cons, List.length_append, ha]
    omega

end Applies

section Cut
variable {i j : ℕ} {hunks : List (Hunk α)} {ops : List (Op α)}

/-- The hunks of a script make the new lines of the old ones. -/
theorem applies_of_cut (h : Cut i j hunks ops) : Applies i j hunks (old ops) (new ops) := by
  induction hunks generalizing i j ops with
  | nil => exact old_eq_new h
  | cons first hunks ih =>
    obtain ⟨between, rest, rfl, hkeep, ha, hb, hacount, hbcount, hrest⟩ := h
    have hlength := length_old_of_keep hkeep
    refine ⟨old between, old rest, new rest, ?_, ?_, ?_, ?_, hacount, hbcount, ih hrest⟩
    · simp only [old_append]
    · simp only [new_append, old_eq_new hkeep]
    · rw [hlength, ha]
    · rw [hlength, hb]

/-- What the script keeps is kept within the hunks or lies between them. -/
theorem kept_of_cut (h : Cut i j hunks ops) :
    (hunks.map fun h => kept h.body).sum + (old ops).length =
      kept ops + (hunks.map Hunk.aCount).sum := by
  induction hunks generalizing i j ops with
  | nil =>
    have hold := length_old_of_keep h
    have hall := kept_of_keep h
    simp only [List.map_nil, List.sum_nil]
    omega
  | cons first hunks ih =>
    obtain ⟨between, rest, rfl, hkeep, -, -, hacount, -, hrest⟩ := h
    have hold := length_old_of_keep hkeep
    have hall := kept_of_keep hkeep
    have hsum := ih hrest
    simp only [List.map_cons, List.sum_cons, old_append, kept_append, List.length_append]
    omega

end Cut

end Remembra.Patch
