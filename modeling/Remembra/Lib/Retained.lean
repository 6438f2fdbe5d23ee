import Mathlib.Data.List.Sort

/-! Logs of which the newest entries are kept. Rows stand in the order they were written, with ids that
    are unique and a time stamp each; a reader sorts them by time stamp, newest first. Where the time
    stamps grow with the rows, what is read is the log backwards, and keeping the ids of the first `n`
    read is keeping the last `n` rows written. -/

namespace Remembra

variable {α ι κ : Type*} [LinearOrder κ]

/-- Newest first; rows of one time stamp stay in the order they were written. -/
def newestFirst (stamp : α → κ) (rows : List α) : List α :=
  rows.insertionSort fun a b => stamp b ≤ stamp a

section NewestFirst
variable {stamp : α → κ} {rows : List α}

theorem newestFirst_perm : (newestFirst stamp rows).Perm rows := List.perm_insertionSort _ rows

@[simp] theorem mem_newestFirst {a : α} : a ∈ newestFirst stamp rows ↔ a ∈ rows :=
  newestFirst_perm.mem_iff

@[simp] theorem length_newestFirst : (newestFirst stamp rows).length = rows.length :=
  newestFirst_perm.length_eq

theorem orderedInsert_concat {r : α → α → Prop} [DecidableRel r] {a : α} {l : List α}
    (h : ∀ b ∈ l, ¬ r a b) : l.orderedInsert r a = l ++ [a] := by
  induction l with
  | nil => rfl
  | cons b l ih =>
    rw [List.orderedInsert, if_neg (h b List.mem_cons_self),
      ih fun c hc => h c (List.mem_cons_of_mem b hc), List.cons_append]

theorem newestFirst_eq_reverse (h : rows.Pairwise fun a b => stamp a < stamp b) :
    newestFirst stamp rows = rows.reverse := by
  induction rows with
  | nil => rfl
  | cons a rows ih =>
    rw [List.pairwise_cons] at h
    rw [newestFirst, List.insertionSort_cons, ← newestFirst, ih h.2, List.reverse_cons]
    refine orderedInsert_concat fun b hb => ?_
    exact not_le.mpr (h.1 b (List.mem_reverse.mp hb))

/-- Where a second stamp grows with the rows, it settles the order of those with one time stamp. -/
theorem newestFirst_stable [Preorder ι] {serial : α → ι} (h : rows.Pairwise fun a b => serial a < serial b) :
    (newestFirst stamp rows).Pairwise fun a b =>
      stamp b < stamp a ∨ stamp a = stamp b ∧ serial a < serial b := by
  have hinsert (a : α) (l : List α) (hl : l.Pairwise fun a b =>
      stamp b < stamp a ∨ stamp a = stamp b ∧ serial a < serial b) (ha : ∀ b ∈ l, serial a < serial b) :
      (l.orderedInsert (fun a b => stamp b ≤ stamp a) a).Pairwise fun a b =>
        stamp b < stamp a ∨ stamp a = stamp b ∧ serial a < serial b := by
    induction l with
    | nil => exact List.pairwise_singleton _ _
    | cons b l ih =>
      obtain ⟨hb, hl'⟩ := List.pairwise_cons.mp hl
      rw [List.orderedInsert]
      split_ifs with hle
      · -- Everything behind `b` is as old as `b` or older.
        refine List.pairwise_cons.mpr ⟨fun c hc => ?_, hl⟩
        have hcb : stamp c ≤ stamp b := by
          rcases List.mem_cons.mp hc with rfl | hc
          · exact le_rfl
          · rcases hb c hc with hlt | ⟨heq, -⟩
            · exact hlt.le
            · exact heq.ge
        rcases (hcb.trans hle).lt_or_eq with hlt | heq
        · exact .inl hlt
        · exact .inr ⟨heq.symm, ha c hc⟩
      · refine List.pairwise_cons.mpr ⟨fun c hc => ?_, ih hl' fun c hc => ha c (List.mem_cons_of_mem _ hc)⟩
        rcases List.mem_orderedInsert _ |>.mp hc with rfl | hc
        · exact .inl (not_le.mp hle)
        · exact hb c hc
  induction rows with
  | nil => exact List.Pairwise.nil
  | cons a rows ih =>
    obtain ⟨ha, hrows⟩ := List.pairwise_cons.mp h
    exact hinsert a _ (ih hrows) fun b hb => ha b (mem_newestFirst.mp hb)

end NewestFirst

/-- In a log without repeated ids, the rows with an id of its end are its end. -/
theorem filter_mem_end [DecidableEq ι] {id : α → ι} {front last : List α}
    (h : ((front ++ last).map id).Nodup) :
    (front ++ last).filter (fun a => id a ∈ last.map id) = last := by
  rw [List.map_append, List.nodup_append] at h
  rw [List.filter_append, List.filter_eq_nil_iff.mpr, List.nil_append, List.filter_eq_self]
  · exact fun a ha => by simpa using ⟨a, ha, rfl⟩
  · intro a ha hmem
    rw [decide_eq_true_iff] at hmem
    exact h.2.2 (id a) (List.mem_map_of_mem ha) (id a) hmem rfl

/-- Keeping the ids of the first `n` rows that a reader sees keeps the last `n` rows. -/
theorem filter_mem_newest [DecidableEq ι] {id : α → ι} {stamp : α → κ} {rows : List α} (n : ℕ)
    (hid : (rows.map id).Nodup) (h : rows.Pairwise fun a b => stamp a < stamp b) :
    rows.filter (fun a => id a ∈ ((newestFirst stamp rows).take n).map id) =
      (rows.reverse.take n).reverse := by
  rw [newestFirst_eq_reverse h, List.take_reverse, List.reverse_reverse]
  have hsplit := List.take_append_drop (rows.length - n) rows
  have hlast : rows.filter (fun a => id a ∈ (rows.drop (rows.length - n)).map id) =
      rows.drop (rows.length - n) := by
    rw [← hsplit] at hid
    have := filter_mem_end hid
    rwa [hsplit] at this
  simpa only [List.map_reverse, List.mem_reverse] using hlast

theorem take_cons_take (n : ℕ) (a : α) (l : List α) : (a :: l.take n).take n = (a :: l).take n := by
  cases n with
  | zero => rfl
  | succ n => rw [List.take_succ_cons, List.take_succ_cons, List.take_take, Nat.min_eq_left n.le_succ]

end Remembra
