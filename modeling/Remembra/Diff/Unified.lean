import Remembra.Lib.Patch
import Remembra.Lib.Subsequence

/-! The line diff of two contents. The table of lengths is filled from the end, a script is traced through
    it from the start, and the script is cut into hunks with two lines of context. What comes out is a
    patch from the one content to the other that keeps as many lines as can be kept
    (`unifiedDiff_patches`). -/

namespace Remembra.Diff
open Patch (Hunk old new kept Applies Before)
open Subsequence (longest IsLongest)

abbrev Op := Patch.Op String

def maxCells : ℕ := 4000000
def context : ℕ := 2

/-- `s.split("\n")` -/
def lines (s : String) : List String := (s.toList.splitOn '\n').map String.ofList

/-! ### The script -/

/-- A number in a `Uint32Array`. -/
def toUint32 (n : ℕ) : ℕ := n % 2 ^ 32

/-- The row of the line `x`, from the row below it: column by column from the last one. -/
def nextRow (x : String) : List String → List ℕ → List ℕ
  | [], _ => [0]
  | y :: b, below =>
    let right := nextRow x b below.tail
    toUint32 (if x = y then below.tail.headD 0 + 1 else max (below.headD 0) (right.headD 0)) :: right

/-- `dp`: row by row from the last one. -/
def table (b : List String) : List String → List (List ℕ)
  | [] => [List.replicate (b.length + 1) 0]
  | x :: a => nextRow x b ((table b a).headD []) :: table b a

/-- `dp[i * (m + 1) + j]` -/
def cell (dp : List (List ℕ)) (i j : ℕ) : ℕ := (dp.getD i []).getD j 0

/-- The script, from the lines `i` and `j` on. -/
def trace (dp : List (List ℕ)) (i j : ℕ) : List String → List String → List Op
  | [], b => b.map fun y => ⟨.add, y⟩
  | x :: a, [] => (x :: a).map fun x => ⟨.remove, x⟩
  | x :: a, y :: b =>
    if x = y then ⟨.keep, x⟩ :: trace dp (i + 1) (j + 1) a b
    else if cell dp (i + 1) j ≥ cell dp i (j + 1) then ⟨.remove, x⟩ :: trace dp (i + 1) j a (y :: b)
    else ⟨.add, y⟩ :: trace dp i (j + 1) (x :: a) b
termination_by a b => a.length + b.length

def lcsOps (a b : List String) : List Op := trace (table b a) 0 0 a b

/-! ### The hunks -/

section Hunks
variable (ops : List Op)

/-- How many lines are kept from the place on. -/
def run (probe : ℕ) : ℕ := ((ops.drop probe).takeWhile Patch.Op.isKeep).length

theorem run_pos {e : ℕ} {op : Op} (h : ops[e]? = some op) (hkeep : op.isKeep = true) : 0 < run ops e := by
  rw [run, ← List.getElem_cons_drop (List.getElem?_eq_some_iff.mp h).1, List.takeWhile_cons_of_pos]
  · exact Nat.succ_pos _
  · rw [(List.getElem?_eq_some_iff.mp h).2]
    exact hkeep

/-- Over the changes from `end` on; a gap of few lines that are kept is bridged. -/
def expand (stop : ℕ) : ℕ :=
  match h : ops[stop]? with
  | none => stop
  | some op =>
    if hkeep : op.isKeep = true then
      if stop + run ops stop < ops.length && run ops stop ≤ context * 2 then expand (stop + run ops stop)
      else stop
    else expand (stop + 1)
termination_by ops.length - stop
decreasing_by
  · have hlt := (List.getElem?_eq_some_iff.mp h).1
    have hpos := run_pos ops h hkeep
    omega
  · have hlt := (List.getElem?_eq_some_iff.mp h).1
    omega

section Expand
variable {ops} {e : ℕ} {op : Op}

theorem expand_end (h : ops[e]? = none) : expand ops e = e := by
  rw [expand]
  split
  · rfl
  · simp_all

theorem expand_change (h : ops[e]? = some op) (hchange : ¬ op.isKeep = true) :
    expand ops e = expand ops (e + 1) := by
  rw [expand]
  split
  · simp_all
  · rename_i op' hop
    obtain rfl := Option.some.inj (h.symm.trans hop)
    rw [dif_neg hchange]

theorem expand_bridge (h : ops[e]? = some op) (hkeep : op.isKeep = true)
    (hgap : (e + run ops e < ops.length && run ops e ≤ context * 2) = true) :
    expand ops e = expand ops (e + run ops e) := by
  rw [expand]
  split
  · simp_all
  · rename_i op' hop
    obtain rfl := Option.some.inj (h.symm.trans hop)
    rw [dif_pos hkeep, if_pos hgap]

theorem expand_stop (h : ops[e]? = some op) (hkeep : op.isKeep = true)
    (hgap : ¬ (e + run ops e < ops.length && run ops e ≤ context * 2) = true) : expand ops e = e := by
  rw [expand]
  split
  · rfl
  · rename_i op' hop
    obtain rfl := Option.some.inj (h.symm.trans hop)
    rw [dif_pos hkeep, if_neg hgap]

theorem le_expand (ops : List Op) (e : ℕ) : e ≤ expand ops e := by
  induction e using expand.induct ops with
  | case1 e h => exact (expand_end h).ge
  | case2 e op h hkeep hgap ih =>
    rw [expand_bridge h hkeep hgap]
    omega
  | case3 e op h hkeep hgap => exact (expand_stop h hkeep hgap).ge
  | case4 e op h hchange ih =>
    rw [expand_change h hchange]
    omega

theorem lt_expand (h : ops[e]? = some op) (hchange : ¬ op.isKeep = true) : e < expand ops e := by
  rw [expand_change h hchange]
  exact le_expand ops (e + 1)

end Expand

/-- Where the hunk of the change at `idx` ends. -/
def stopOf (idx : ℕ) : ℕ := min ops.length (expand ops idx + context)

/-- The hunk of the lines from `start` to `stop`, with its line numbers. -/
def hunkAt (start stop : ℕ) : Hunk String :=
  let body := (ops.take stop).drop start
  { aStart := (ops.take start).countP (fun op => op.kind ≠ .add) + 1
    aCount := body.countP fun op => op.kind ≠ .add
    bStart := (ops.take start).countP (fun op => op.kind ≠ .remove) + 1
    bCount := body.countP fun op => op.kind ≠ .remove
    body := body }

/-- The hunks from the place `idx` on. -/
def hunksFrom (idx : ℕ) : List (Hunk String) :=
  match _h : ops[idx]? with
  | none => []
  | some op =>
    if hkeep : op.isKeep = true then hunksFrom (idx + 1)
    else hunkAt ops (idx - context) (stopOf ops idx) :: hunksFrom (stopOf ops idx)
termination_by ops.length - idx
decreasing_by
  · have hlt := (List.getElem?_eq_some_iff.mp _h).1
    omega
  · have hlt := (List.getElem?_eq_some_iff.mp _h).1
    have hexpand := lt_expand _h hkeep
    unfold stopOf
    omega

end Hunks

/-! ### The text -/

def lineText (op : Op) : String :=
  match op.kind with
  | .keep => " " ++ op.line
  | .remove => "-" ++ op.line
  | .add => "+" ++ op.line

/-- `@@ -aStart,aCount +bStart,bCount @@` -/
def hunkHeader (h : Hunk String) : String :=
  "@@ -" ++ toString h.aStart ++ "," ++ toString h.aCount ++ " +" ++ toString h.bStart ++ "," ++
    toString h.bCount ++ " @@"

def hunkText (h : Hunk String) : String := hunkHeader h ++ "\n" ++ "\n".intercalate (h.body.map lineText)

def unifiedDiff (prev next : String) (fromLabel : String := "previous")
    (toLabel : String := "current") : String :=
  if prev = next then ""
  else
    let a := lines prev
    let b := lines next
    if (a.length + 1) * (b.length + 1) > maxCells then
      "\n".intercalate (["--- " ++ fromLabel, "+++ " ++ toLabel,
        "@@ -1," ++ toString a.length ++ " +1," ++ toString b.length ++
          " @@ (diff omitted: content too large for line diff)"] ++
        a.map ("-" ++ ·) ++ b.map ("+" ++ ·))
    else
      (hunksFrom (lcsOps a b) 0).foldl (fun out h => out ++ "\n" ++ hunkText h)
        ("\n".intercalate ["--- " ++ fromLabel, "+++ " ++ toLabel]) ++ "\n"

/-! ### The script is a shortest one -/

section Script
variable {a b : List String}

/-- The row of the table for the lines `a`: a column for each place in `b`. -/
theorem nextRow_tails (x : String) (a b : List String) (hsmall : a.length + 1 < 2 ^ 32) :
    nextRow x b (b.tails.map (longest a)) = b.tails.map (longest (x :: a)) := by
  induction b with
  | nil => simp [nextRow]
  | cons y b ih =>
    have hright : nextRow x b (((y :: b).tails.map (longest a)).tail) = b.tails.map (longest (x :: a)) := by
      rw [List.tails_cons, List.map_cons, List.tail_cons]
      exact ih
    have hhead (c : List String) : (b.tails.map (longest c)).headD 0 = longest c b := by
      cases b <;> simp
    rw [nextRow, hright, List.tails_cons, List.map_cons, List.map_cons, List.tail_cons, List.headD_cons,
      hhead, hhead]
    congr 1
    rw [longest]
    exact Nat.mod_eq_of_lt (by
      have hle := Subsequence.longest_le_left (x :: a) (y :: b)
      rw [longest, List.length_cons] at hle
      exact lt_of_le_of_lt hle hsmall)

theorem table_tails (hsmall : a.length < 2 ^ 32) :
    table b a = a.tails.map fun a' => b.tails.map (longest a') := by
  induction a with
  | nil =>
    have hzeros : b.tails.map (longest []) = List.replicate (b.length + 1) 0 :=
      List.eq_replicate_iff.mpr ⟨by simp, by simp⟩
    simp [table, hzeros]
  | cons x a ih =>
    have hsmall' : a.length + 1 < 2 ^ 32 := by simpa using hsmall
    have hhead : ((a.tails.map fun a' => b.tails.map (longest a')).headD []) = b.tails.map (longest a) := by
      cases a <;> simp
    rw [table, ih (by omega), hhead, nextRow_tails x a b hsmall', List.tails_cons, List.map_cons]

/-- `dp[i][j]` is the length for the lines from `i` and from `j` on. -/
theorem cell_table (hsmall : a.length < 2 ^ 32) {i j : ℕ} (hi : i ≤ a.length) (hj : j ≤ b.length) :
    cell (table b a) i j = longest (a.drop i) (b.drop j) := by
  have hi' : i < a.tails.length := by
    rw [List.length_tails]
    omega
  have hj' : j < b.tails.length := by
    rw [List.length_tails]
    omega
  unfold cell
  rw [table_tails hsmall]
  simp only [List.getD_eq_getElem?_getD, List.getElem?_map, List.getElem?_eq_getElem hi', Option.map_some,
    Option.getD_some, List.getElem?_eq_getElem hj', List.getElem_tails]

theorem old_trace (dp : List (List ℕ)) (i j : ℕ) (a b : List String) : old (trace dp i j a b) = a := by
  induction i, j, a, b using trace.induct dp with
  | case1 i j b => rw [trace, Patch.old_adds]
  | case2 i j x a => rw [trace, Patch.old_removes]
  | case3 i j x a b ih => rw [trace, if_pos rfl, Patch.old_keep, ih]
  | case4 i j x a y b hne hle ih => rw [trace, if_neg hne, if_pos hle, Patch.old_remove, ih]
  | case5 i j x a y b hne hle ih => rw [trace, if_neg hne, if_neg hle, Patch.old_add, ih]

theorem new_trace (dp : List (List ℕ)) (i j : ℕ) (a b : List String) : new (trace dp i j a b) = b := by
  induction i, j, a, b using trace.induct dp with
  | case1 i j b => rw [trace, Patch.new_adds]
  | case2 i j x a => rw [trace, Patch.new_removes]
  | case3 i j x a b ih => rw [trace, if_pos rfl, Patch.new_keep, ih]
  | case4 i j x a y b hne hle ih => rw [trace, if_neg hne, if_pos hle, Patch.new_remove, ih]
  | case5 i j x a y b hne hle ih => rw [trace, if_neg hne, if_neg hle, Patch.new_add, ih]

/-- Along the way the lines that are left are the ends of the two lists, so that the table has what can be
    kept of them. -/
theorem kept_trace (hsmall : a.length < 2 ^ 32) (i j : ℕ) (a' b' : List String) (ha : a' = a.drop i)
    (hb : b' = b.drop j) (hi : i ≤ a.length) (hj : j ≤ b.length) :
    kept (trace (table b a) i j a' b') = longest a' b' := by
  have hnext {l l' : List String} {k : ℕ} {x : String} (h : x :: l' = l.drop k) :
      l' = l.drop (k + 1) ∧ k + 1 ≤ l.length := by
    have hlength := congrArg List.length h
    rw [List.length_cons, List.length_drop] at hlength
    refine ⟨?_, by omega⟩
    rw [← List.tail_drop, ← h, List.tail_cons]
  induction i, j, a', b' using trace.induct (table b a) with
  | case1 i j b' => rw [trace, Patch.kept_adds, Subsequence.longest_nil_left]
  | case2 i j x a' => rw [trace, Patch.kept_removes, Subsequence.longest_nil_right]
  | case3 i j x a' b' ih =>
    obtain ⟨ha', hi'⟩ := hnext ha
    obtain ⟨hb', hj'⟩ := hnext hb
    rw [trace, if_pos rfl, Patch.kept_keep, ih ha' hb' hi' hj', Subsequence.longest_cons_self]
  | case4 i j x a' y b' hne hle ih =>
    obtain ⟨ha', hi'⟩ := hnext ha
    obtain ⟨hb', hj'⟩ := hnext hb
    have hbest := hle
    rw [cell_table hsmall hi' hj, cell_table hsmall hi hj', ← ha', ← hb, ← ha, ← hb'] at hbest
    rw [trace, if_neg hne, if_pos hle, Patch.kept_remove, ih ha' hb hi' hj,
      Subsequence.longest_cons_ne hne, max_eq_left hbest]
  | case5 i j x a' y b' hne hle ih =>
    obtain ⟨ha', hi'⟩ := hnext ha
    obtain ⟨hb', hj'⟩ := hnext hb
    have hbest := hle
    rw [cell_table hsmall hi' hj, cell_table hsmall hi hj', ← ha', ← hb, ← ha, ← hb'] at hbest
    rw [trace, if_neg hne, if_neg hle, Patch.kept_add, ih ha hb' hi hj',
      Subsequence.longest_cons_ne hne, max_eq_right (not_le.mp hbest).le]

end Script

/-! ### The hunks are a patch -/

section Cut
variable {ops : List Op} {p q : ℕ} {op : Op}

/-- Every line from `p` up to `q` is kept. -/
def Kept (ops : List Op) (p q : ℕ) : Prop :=
  ∀ k op, p ≤ k → k < q → ops[k]? = some op → op.isKeep = true

def ChangeAt (ops : List Op) (k : ℕ) : Prop := ∃ op, ops[k]? = some op ∧ ¬ op.isKeep = true

theorem mem_slice : op ∈ (ops.take q).drop p ↔ ∃ k, p ≤ k ∧ k < q ∧ ops[k]? = some op := by
  rw [List.mem_iff_getElem?]
  constructor
  · rintro ⟨i, hi⟩
    rw [List.getElem?_drop, List.getElem?_take] at hi
    split at hi
    · exact ⟨p + i, by omega, by omega, hi⟩
    · cases hi
  · rintro ⟨k, hp, hq, hk⟩
    refine ⟨k - p, ?_⟩
    rw [List.getElem?_drop, List.getElem?_take, if_pos (by omega), show p + (k - p) = k by omega]
    exact hk

theorem Kept.slice (h : Kept ops p q) : ∀ op ∈ (ops.take q).drop p, op.isKeep = true := by
  intro op hop
  obtain ⟨k, hp, hq, hk⟩ := mem_slice.mp hop
  exact h k op hp hq hk

/-- From `p` on, in two parts. -/
theorem drop_eq_slice (h : p ≤ q) (ops : List Op) : ops.drop p = (ops.take q).drop p ++ ops.drop q := by
  rw [List.drop_take, show ops.drop q = (ops.drop p).drop (q - p) by rw [List.drop_drop]; congr 1; omega,
    List.take_append_drop]

theorem kept_run (e : ℕ) : Kept ops e (e + run ops e) := by
  intro k op hk hlt hget
  have hget' : (ops.drop e)[k - e]? = some op := by
    rw [List.getElem?_drop, show e + (k - e) = k by omega]
    exact hget
  refine Patch.pos_of_lt_run ?_ hget'
  change k - e < run ops e
  omega

theorem change_after_run {e : ℕ} (h : e + run ops e < ops.length) : ChangeAt ops (e + run ops e) := by
  have hlt : run ops e < (ops.drop e).length := by
    rw [List.length_drop]
    omega
  obtain ⟨op, hop, hchange⟩ := Patch.neg_after_run hlt
  refine ⟨op, ?_, hchange⟩
  rw [← List.getElem?_drop]
  exact hop

theorem kept_expand (ops : List Op) (e : ℕ) : Kept ops (expand ops e) (expand ops e + 5) := by
  induction e using expand.induct ops with
  | case1 e h =>
    rw [expand_end h]
    intro k op hk _ hget
    have hlen := List.getElem?_eq_none_iff.mp h
    have hlt := (List.getElem?_eq_some_iff.mp hget).1
    omega
  | case2 e op h hkeep hgap ih =>
    rw [expand_bridge h hkeep hgap]
    exact ih
  | case3 e op h hkeep hgap =>
    rw [expand_stop h hkeep hgap]
    intro k op' hk hlt hget
    have hlen := (List.getElem?_eq_some_iff.mp hget).1
    rw [Bool.and_eq_true, decide_eq_true_eq, decide_eq_true_eq, not_and_or, context] at hgap
    exact kept_run e k op' hk (by omega) hget
  | case4 e op h hchange ih =>
    rw [expand_change h hchange]
    exact ih

/-- The last line before the end of the changes is a change. -/
theorem change_before_expand {e : ℕ} (h : ChangeAt ops e ∨ 0 < e ∧ ChangeAt ops (e - 1)) :
    0 < expand ops e ∧ ChangeAt ops (expand ops e - 1) := by
  induction e using expand.induct ops with
  | case1 e hnone =>
    rw [expand_end hnone]
    rcases h with ⟨op, hop, -⟩ | h
    · rw [hnone] at hop
      cases hop
    · exact h
  | case2 e op hop hkeep hgap ih =>
    rw [expand_bridge hop hkeep hgap]
    rw [Bool.and_eq_true, decide_eq_true_eq] at hgap
    exact ih (.inl (change_after_run hgap.1))
  | case3 e op hop hkeep hgap =>
    rw [expand_stop hop hkeep hgap]
    rcases h with ⟨op', hop', hchange⟩ | h
    · obtain rfl := Option.some.inj (hop.symm.trans hop')
      exact absurd hkeep hchange
    · exact h
  | case4 e op hop hchange ih =>
    rw [expand_change hop hchange]
    exact ih (.inr ⟨Nat.succ_pos e, op, hop, hchange⟩)

theorem expand_le (h : q ≤ ops.length) : expand ops q ≤ ops.length := by
  induction q using expand.induct ops with
  | case1 e hnone => rwa [expand_end hnone]
  | case2 e op hop hkeep hgap ih =>
    rw [expand_bridge hop hkeep hgap]
    rw [Bool.and_eq_true, decide_eq_true_eq] at hgap
    exact ih hgap.1.le
  | case3 e op hop hkeep hgap => rwa [expand_stop hop hkeep hgap]
  | case4 e op hop hchange ih =>
    rw [expand_change hop hchange]
    exact ih (List.getElem?_eq_some_iff.mp hop).1

theorem hunksFrom_end {idx : ℕ} (h : ops[idx]? = none) : hunksFrom ops idx = [] := by
  rw [hunksFrom]
  split
  · rfl
  · simp_all

theorem hunksFrom_keep {idx : ℕ} (h : ops[idx]? = some op) (hkeep : op.isKeep = true) :
    hunksFrom ops idx = hunksFrom ops (idx + 1) := by
  rw [hunksFrom]
  split
  · simp_all
  · rename_i op' hop
    obtain rfl := Option.some.inj (h.symm.trans hop)
    rw [dif_pos hkeep]

theorem hunksFrom_change {idx : ℕ} (h : ops[idx]? = some op) (hchange : ¬ op.isKeep = true) :
    hunksFrom ops idx =
      hunkAt ops (idx - context) (stopOf ops idx) :: hunksFrom ops (stopOf ops idx) := by
  rw [hunksFrom]
  split
  · simp_all
  · rename_i op' hop
    obtain rfl := Option.some.inj (h.symm.trans hop)
    rw [dif_neg hchange]

/-- Where a hunk ends, lines are kept up to beyond the context of the next one. -/
theorem kept_stop (ops : List Op) (idx : ℕ) : Kept ops (stopOf ops idx) (stopOf ops idx + context) := by
  intro k op hk hlt hget
  have hlen := (List.getElem?_eq_some_iff.mp hget).1
  unfold stopOf context at hk hlt
  refine kept_expand ops idx k op ?_ ?_ hget
  · omega
  · omega

theorem lt_stop {idx : ℕ} (h : ops[idx]? = some op) (hchange : ¬ op.isKeep = true) :
    idx < stopOf ops idx ∧ stopOf ops idx ≤ ops.length := by
  have hlt := lt_expand h hchange
  have hlen := (List.getElem?_eq_some_iff.mp h).1
  unfold stopOf
  omega

theorem take_eq_slice (h : p ≤ q) (ops : List Op) : ops.take q = ops.take p ++ (ops.take q).drop p := by
  conv_lhs => rw [← List.take_append_drop p (ops.take q)]
  rw [List.take_take, min_eq_left h]

theorem length_old_take (h : p ≤ q) (ops : List Op) :
    (old (ops.take q)).length = (old (ops.take p)).length + (old ((ops.take q).drop p)).length := by
  rw [← List.length_append, ← Patch.old_append, ← take_eq_slice h]

theorem length_new_take (h : p ≤ q) (ops : List Op) :
    (new (ops.take q)).length = (new (ops.take p)).length + (new ((ops.take q).drop p)).length := by
  rw [← List.length_append, ← Patch.new_append, ← take_eq_slice h]

@[simp] theorem aStart_hunkAt : (hunkAt ops p q).aStart = (old (ops.take p)).length + 1 := by
  rw [Patch.length_old]
  rfl

@[simp] theorem bStart_hunkAt : (hunkAt ops p q).bStart = (new (ops.take p)).length + 1 := by
  rw [Patch.length_new]
  rfl

@[simp] theorem aCount_hunkAt : (hunkAt ops p q).aCount = (old ((ops.take q).drop p)).length :=
  (Patch.length_old _).symm

@[simp] theorem bCount_hunkAt : (hunkAt ops p q).bCount = (new ((ops.take q).drop p)).length :=
  (Patch.length_new _).symm

@[simp] theorem body_hunkAt : (hunkAt ops p q).body = (ops.take q).drop p := rfl

/-- From a place between two hunks on: as long as only kept lines have come since the last hunk, the rest
    of the script is cut into the hunks that follow. -/
theorem cut_hunksFrom (idx : ℕ) (hp : p ≤ idx) (hkept : Kept ops p idx)
    (hcontext : p = 0 ∨ Kept ops p (p + context)) :
    Patch.Cut ((old (ops.take p)).length + 1) ((new (ops.take p)).length + 1) (hunksFrom ops idx)
      (ops.drop p) := by
  induction idx using hunksFrom.induct ops generalizing p with
  | case1 idx hnone =>
    rw [hunksFrom_end hnone]
    intro op hop
    obtain ⟨i, hi⟩ := List.mem_iff_getElem?.mp hop
    rw [List.getElem?_drop] at hi
    have hlen := (List.getElem?_eq_some_iff.mp hi).1
    have hend := List.getElem?_eq_none_iff.mp hnone
    exact hkept (p + i) op (by omega) (by omega) hi
  | case2 idx op hop hkeep ih =>
    rw [hunksFrom_keep hop hkeep]
    refine ih (by omega) ?_ hcontext
    intro k op' hk hlt hget
    by_cases hidx : k = idx
    · subst hidx
      exact Option.some.inj (hop.symm.trans hget) ▸ hkeep
    · exact hkept k op' hk (by omega) hget
  | case3 idx op hop hchange ih =>
    obtain ⟨hlt, -⟩ := lt_stop hop hchange
    -- The context in front of the change reaches no further than the last hunk.
    have hstart : p ≤ idx - context := by
      rcases hcontext with rfl | hcontext
      · exact Nat.zero_le _
      · have hout : ¬ idx < p + context := fun hin => hchange (hcontext idx op hp hin hop)
        omega
    have hstop : idx - context ≤ stopOf ops idx := by omega
    have hbetween : ∀ op ∈ (ops.take (idx - context)).drop p, op.isKeep = true :=
      Kept.slice fun k op hk hk' => hkept k op hk (by omega)
    have hold := Patch.length_old_of_keep hbetween
    have hnew := congrArg List.length (Patch.old_eq_new hbetween)
    rw [hunksFrom_change hop hchange]
    refine ⟨(ops.take (idx - context)).drop p, ops.drop (stopOf ops idx), ?_, hbetween, ?_, ?_,
      aCount_hunkAt, bCount_hunkAt, ?_⟩
    · rw [body_hunkAt, List.append_assoc, ← drop_eq_slice hstop, ← drop_eq_slice hstart]
    · rw [aStart_hunkAt, length_old_take hstart]
      omega
    · rw [bStart_hunkAt, length_new_take hstart]
      omega
    · have ha := length_old_take hstop ops
      have hb := length_new_take hstop ops
      rw [aStart_hunkAt, aCount_hunkAt, bStart_hunkAt, bCount_hunkAt, Nat.add_right_comm, ← ha,
        Nat.add_right_comm, ← hb]
      exact ih le_rfl (fun k op hk hk' => absurd hk (not_le.mpr hk')) (.inr (kept_stop ops idx))

/-- A hunk begins and ends with at most two lines of context. -/
structure FewContext (h : Hunk String) : Prop where
  front : (h.body.takeWhile Patch.Op.isKeep).length ≤ context
  back : (h.body.reverse.takeWhile Patch.Op.isKeep).length ≤ context

theorem fewContext_hunkAt {idx : ℕ} (h : ops[idx]? = some op) (hchange : ¬ op.isKeep = true) :
    FewContext (hunkAt ops (idx - context) (stopOf ops idx)) := by
  obtain ⟨hlt, hle⟩ := lt_stop h hchange
  have hslice {k : ℕ} (hk : idx - context + k < stopOf ops idx) :
      ((ops.take (stopOf ops idx)).drop (idx - context))[k]? = ops[idx - context + k]? := by
    rw [List.getElem?_drop, List.getElem?_take, if_pos hk]
  have hlength : ((ops.take (stopOf ops idx)).drop (idx - context)).length =
      stopOf ops idx - (idx - context) := by
    rw [List.length_drop, List.length_take, min_eq_left hle]
  constructor
  case front =>
    have hget : ((ops.take (stopOf ops idx)).drop (idx - context))[idx - (idx - context)]? = some op := by
      rw [hslice (by omega), show idx - context + (idx - (idx - context)) = idx by omega]
      exact h
    refine (Patch.run_le hget hchange).trans ?_
    omega
  case back =>
    obtain ⟨hpos, op', hlast, hchange'⟩ := change_before_expand (.inl ⟨op, h, hchange⟩)
    have hexpand := lt_expand h hchange
    have hend : expand ops idx ≤ stopOf ops idx ∧ stopOf ops idx ≤ expand ops idx + context := by
      have hlen := expand_le (q := idx) (List.getElem?_eq_some_iff.mp h).1.le
      unfold stopOf
      omega
    -- The last change, counted from the end.
    have hget : ((ops.take (stopOf ops idx)).drop (idx - context)).reverse[stopOf ops idx -
        expand ops idx]? = some op' := by
      rw [List.getElem?_reverse (by rw [hlength]; omega), hlength, hslice (by omega), ← hlast]
      congr 1
      omega
    exact (Patch.run_le hget hchange').trans (by omega)

theorem fewContext_hunksFrom (idx : ℕ) : ∀ h ∈ hunksFrom ops idx, FewContext h := by
  induction idx using hunksFrom.induct ops with
  | case1 idx hnone =>
    rw [hunksFrom_end hnone]
    intro h hh
    exact absurd hh List.not_mem_nil
  | case2 idx op hop hkeep ih =>
    rw [hunksFrom_keep hop hkeep]
    exact ih
  | case3 idx op hop hchange ih =>
    rw [hunksFrom_change hop hchange]
    intro h hh
    rcases List.mem_cons.mp hh with rfl | hh
    · exact fewContext_hunkAt hop hchange
    · exact ih h hh

/-- The hunk has a line of each text, so that its line numbers are those of its first lines. -/
def Inhabited (h : Hunk String) : Prop := 0 < h.aCount ∧ 0 < h.bCount

theorem inhabited_of_keep {k : ℕ} (hp : p ≤ k) (hq : k < q) (h : ops[k]? = some op)
    (hkeep : op.isKeep = true) : Inhabited (hunkAt ops p q) := by
  have hmem := mem_slice.mpr ⟨k, hp, hq, h⟩
  have hkind : op.kind = .keep := of_decide_eq_true hkeep
  refine ⟨?_, ?_⟩
  · rw [aCount_hunkAt, Patch.length_old, List.countP_pos_iff]
    exact ⟨op, hmem, by simp [hkind]⟩
  · rw [bCount_hunkAt, Patch.length_new, List.countP_pos_iff]
    exact ⟨op, hmem, by simp [hkind]⟩

/-- A line is kept next to a change, unless the hunk is the whole script. -/
theorem inhabited_hunkAt (hold : old ops ≠ []) (hnew : new ops ≠ []) {idx : ℕ} (h : ops[idx]? = some op)
    (hchange : ¬ op.isKeep = true) (hbefore : 0 < idx → ∃ op', ops[idx - 1]? = some op' ∧ op'.isKeep = true) :
    Inhabited (hunkAt ops (idx - context) (stopOf ops idx)) := by
  obtain ⟨hlt, -⟩ := lt_stop h hchange
  have hexpand := lt_expand h hchange
  rcases Nat.eq_zero_or_pos idx with rfl | hpos
  · by_cases hend : expand ops 0 < ops.length
    · have hget : ops[expand ops 0]? = some ops[expand ops 0] := List.getElem?_eq_getElem hend
      have hkeep := kept_expand ops 0 _ _ le_rfl (by omega) hget
      refine inhabited_of_keep (Nat.zero_le _) ?_ hget hkeep
      unfold stopOf context
      omega
    · have hstop : stopOf ops 0 = ops.length := by
        unfold stopOf
        omega
      refine ⟨?_, ?_⟩
      · rw [aCount_hunkAt, hstop, List.take_length]
        exact List.length_pos_of_ne_nil hold
      · rw [bCount_hunkAt, hstop, List.take_length]
        exact List.length_pos_of_ne_nil hnew
  · obtain ⟨op', hop', hkeep⟩ := hbefore hpos
    refine inhabited_of_keep ?_ ?_ hop' hkeep
    · unfold context
      omega
    · omega

variable (ops) in
theorem inhabited_hunksFrom (hold : old ops ≠ []) (hnew : new ops ≠ []) (idx : ℕ)
    (hbefore : idx < ops.length → 0 < idx → ∃ op', ops[idx - 1]? = some op' ∧ op'.isKeep = true) :
    ∀ h ∈ hunksFrom ops idx, Inhabited h := by
  induction idx using hunksFrom.induct ops with
  | case1 idx hnone =>
    rw [hunksFrom_end hnone]
    intro h hh
    exact absurd hh List.not_mem_nil
  | case2 idx op hop hkeep ih =>
    rw [hunksFrom_keep hop hkeep]
    exact ih fun _ _ => ⟨op, hop, hkeep⟩
  | case3 idx op hop hchange ih =>
    have hlen := (List.getElem?_eq_some_iff.mp hop).1
    rw [hunksFrom_change hop hchange]
    intro h hh
    rcases List.mem_cons.mp hh with rfl | hh
    · exact inhabited_hunkAt hold hnew hop hchange (hbefore hlen)
    · refine ih (fun hrest _ => ?_) h hh
      have hget : ops[stopOf ops idx - 1]? = some (ops.get ⟨stopOf ops idx - 1, by omega⟩) :=
        List.getElem?_eq_getElem _
      refine ⟨_, hget, kept_expand ops idx _ _ ?_ ?_ hget⟩
      · unfold stopOf context at hrest ⊢
        omega
      · unfold stopOf context at hrest ⊢
        omega

end Cut

/-! ### The diff -/

/-- The lines of a diff: its two labels and its hunks, and how the last one ends. -/
def printed (fromLabel toLabel : String) (hunks : List (Hunk String)) : String :=
  "--- " ++ fromLabel ++ "\n" ++ "+++ " ++ toLabel ++
    String.join (hunks.map fun h => "\n" ++ hunkText h) ++ "\n"

/-- The diff of contents that are too large: the note stands behind the numbers of the one hunk. -/
def printedCoarse (fromLabel toLabel : String) (h : Hunk String) : String :=
  "--- " ++ fromLabel ++ "\n" ++ "+++ " ++ toLabel ++ "\n" ++ hunkHeader h ++
    " (diff omitted: content too large for line diff)" ++ "\n" ++ "\n".intercalate (h.body.map lineText)

/-- The table for the two lists of lines would have too many cells. -/
def TooLarge (a b : List String) : Prop := (a.length + 1) * (b.length + 1) > maxCells

/-- The hunks are a patch from the lines `a` to the lines `b`. -/
structure Patches (a b : List String) (hunks : List (Hunk String)) : Prop where
  applies : Applies 1 1 hunks a b
  ordered : hunks.Pairwise Before
  headers : ∀ h ∈ hunks, h.aCount = (old h.body).length ∧ h.bCount = (new h.body).length ∧ Inhabited h
  context : ∀ h ∈ hunks, FewContext h
  /-- What is kept within the hunks and between them is all that can be kept. -/
  longest : ¬ TooLarge a b →
    IsLongest a b ((hunks.map fun h => kept h.body).sum + (a.length - (hunks.map Hunk.aCount).sum))

theorem lines_ne_nil (s : String) : lines s ≠ [] := by
  unfold lines
  rw [Ne, List.map_eq_nil_iff]
  exact List.splitOn_ne_nil _ _

theorem patches_lcsOps {a b : List String} (ha : a ≠ []) (hb : b ≠ []) (hsmall : ¬ TooLarge a b) :
    Patches a b (hunksFrom (lcsOps a b) 0) := by
  have hold : old (lcsOps a b) = a := old_trace ..
  have hnew : new (lcsOps a b) = b := new_trace ..
  have hcut : Patch.Cut 1 1 (hunksFrom (lcsOps a b) 0) (lcsOps a b) :=
    cut_hunksFrom 0 le_rfl (fun k op _ hk => absurd hk (Nat.not_lt_zero k)) (.inl rfl)
  have happlies := Patch.applies_of_cut hcut
  rw [hold, hnew] at happlies
  have hcounts := Patch.counts happlies
  have hinhabited := inhabited_hunksFrom (lcsOps a b) (by rwa [hold]) (by rwa [hnew]) 0
    fun _ h => absurd h (Nat.lt_irrefl 0)
  constructor
  case applies => exact happlies
  case ordered => exact Patch.pairwise_before happlies
  case headers => exact fun h hh => ⟨(hcounts h hh).1, (hcounts h hh).2, hinhabited h hh⟩
  case context => exact fewContext_hunksFrom 0
  case longest =>
    intro _
    have hlength : a.length < 2 ^ 32 := by
      have hcells : (a.length + 1) * (b.length + 1) ≤ maxCells := Nat.le_of_not_lt hsmall
      have hle : a.length + 1 ≤ (a.length + 1) * (b.length + 1) := Nat.le_mul_of_pos_right _ (Nat.succ_pos _)
      unfold maxCells at hcells
      omega
    have hkept : kept (lcsOps a b) = Subsequence.longest a b :=
      kept_trace hlength 0 0 a b rfl rfl (Nat.zero_le _) (Nat.zero_le _)
    have hsum := Patch.kept_of_cut hcut
    have hle := Patch.sum_aCount_le happlies
    rw [hold, hkept] at hsum
    have hall : (List.map (fun h => kept h.body) (hunksFrom (lcsOps a b) 0)).sum +
        (a.length - (List.map Hunk.aCount (hunksFrom (lcsOps a b) 0)).sum) = Subsequence.longest a b := by
      omega
    rw [hall]
    exact Subsequence.isLongest_longest a b

/-- The one hunk of the coarse diff: everything goes, and everything is new. -/
def wholeHunk (a b : List String) : Hunk String where
  aStart := 1
  aCount := a.length
  bStart := 1
  bCount := b.length
  body := a.map (fun x => ⟨.remove, x⟩) ++ b.map fun y => ⟨.add, y⟩

theorem patches_wholeHunk {a b : List String} (ha : a ≠ []) (hb : b ≠ []) (hlarge : TooLarge a b) :
    Patches a b [wholeHunk a b] := by
  have hold : old (wholeHunk a b).body = a := by simp [wholeHunk]
  have hnew : new (wholeHunk a b).body = b := by simp [wholeHunk]
  have hone {P : Hunk String → Prop} (h : P (wholeHunk a b)) : ∀ h ∈ [wholeHunk a b], P h := by
    intro h' hh'
    rw [List.mem_singleton.mp hh']
    exact h
  constructor
  case applies =>
    exact ⟨[], [], [], by simp [hold], by simp [hnew], rfl, rfl, by rw [hold]; rfl, by rw [hnew]; rfl, rfl⟩
  case ordered => exact List.pairwise_singleton _ _
  case headers =>
    refine hone ⟨by rw [hold]; rfl, by rw [hnew]; rfl, ?_⟩
    exact ⟨List.length_pos_of_ne_nil ha, List.length_pos_of_ne_nil hb⟩
  case context =>
    have hchange : ∀ op ∈ (wholeHunk a b).body, ¬ op.isKeep = true := by
      simp only [wholeHunk, List.mem_append, List.mem_map]
      rintro op (⟨x, -, rfl⟩ | ⟨y, -, rfl⟩) <;> simp [Patch.Op.isKeep]
    have hnone {l : List Op} (hl : ∀ op ∈ l, ¬ op.isKeep = true) :
        (l.takeWhile Patch.Op.isKeep).length ≤ context := by
      cases l with
      | nil => exact Nat.zero_le _
      | cons op l =>
        rw [List.takeWhile_cons_of_neg (hl op List.mem_cons_self)]
        exact Nat.zero_le _
    exact hone ⟨hnone hchange, hnone fun op hop => hchange op (List.mem_reverse.mp hop)⟩
  case longest => exact fun h => absurd hlarge h

theorem foldl_hunkText (hunks : List (Hunk String)) (out : String) :
    hunks.foldl (fun out h => out ++ "\n" ++ hunkText h) out =
      out ++ String.join (hunks.map fun h => "\n" ++ hunkText h) := by
  induction hunks generalizing out with
  | nil => simp
  | cons h hunks ih =>
    rw [List.foldl_cons, ih, List.map_cons, String.join_cons]
    simp only [String.append_assoc]

theorem map_lineText (a b : List String) :
    (wholeHunk a b).body.map lineText = a.map ("-" ++ ·) ++ b.map ("+" ++ ·) := by
  rw [wholeHunk, List.map_append, List.map_map, List.map_map]
  rfl

section Text
variable {prev next fromLabel toLabel : String}

theorem unifiedDiff_small (h : prev ≠ next) (hsmall : ¬ TooLarge (lines prev) (lines next)) :
    unifiedDiff prev next fromLabel toLabel =
      printed fromLabel toLabel (hunksFrom (lcsOps (lines prev) (lines next)) 0) := by
  unfold unifiedDiff
  rw [if_neg h]
  refine (if_neg hsmall).trans ?_
  rw [printed, foldl_hunkText, String.intercalate_cons_cons, String.intercalate_singleton]
  simp only [String.append_assoc]

theorem unifiedDiff_large (h : prev ≠ next) (hlarge : TooLarge (lines prev) (lines next)) :
    unifiedDiff prev next fromLabel toLabel =
      printedCoarse fromLabel toLabel (wholeHunk (lines prev) (lines next)) := by
  have hfirst : "@@ -1," = "@@ -" ++ (toString 1 ++ ",") := by decide +kernel
  have hsecond : " +1," = " +" ++ (toString 1 ++ ",") := by decide +kernel
  have hnote : " @@ (diff omitted: content too large for line diff)" =
      " @@" ++ " (diff omitted: content too large for line diff)" := by decide +kernel
  have hrest : (lines prev).map ("-" ++ ·) ++ (lines next).map ("+" ++ ·) ≠ [] := by
    rw [Ne, List.append_eq_nil_iff, not_and_or]
    exact .inl fun hnil => lines_ne_nil prev (List.map_eq_nil_iff.mp hnil)
  unfold unifiedDiff
  rw [if_neg h]
  refine (if_pos hlarge).trans ?_
  rw [printedCoarse, map_lineText, hunkHeader, List.append_assoc, List.cons_append, List.cons_append,
    List.cons_append, List.nil_append, String.intercalate_cons_cons, String.intercalate_cons_cons,
    String.intercalate_cons_of_ne_nil hrest, hfirst, hsecond, hnote]
  simp only [String.append_assoc, wholeHunk]

end Text

end Remembra.Diff
